import CalcLang.Checks.WellFormed
import CalcLang.Machine.Interpret
import CalcLang.Main
import CalcLang.Proofs.Activations
import CalcLang.Proofs.Balance
import CalcLang.Proofs.Chains
import CalcLang.Proofs.Depth
import CalcLang.Proofs.Earliest
import CalcLang.Proofs.Exactness
import CalcLang.Proofs.Groups
import CalcLang.Proofs.Halting
import CalcLang.Proofs.Layout
import CalcLang.Proofs.Limits
import CalcLang.Proofs.Lines
import CalcLang.Proofs.Offences
import CalcLang.Proofs.Outlines
import CalcLang.Proofs.Progress
import CalcLang.Proofs.Renaming
import CalcLang.Proofs.Reports
import CalcLang.Proofs.Requests
import CalcLang.Proofs.Tables
import CalcLang.Proofs.Truncation
import CalcLang.Proofs.Violations
import CalcLang.Tree.Evaluate
import CalcLang.Tree.Grammar
