import CalcLang.CommandLine.Options
import CalcLang.Proofs.Lexemes

/-! Arguments as groups. An option stands alone or takes the argument behind it, whatever that is,
and every other argument is a path; the groups may come in any order. Reading takes one group after
the other, so a list that it refuses is complete groups up to the one it names. -/
namespace CalcLang

def depthDigits : List Char → List Char
  | '+' :: digits => digits
  | digits => digits

structure DepthText (text : String) (value : Nat) : Prop where
  digits : IsDigits (depthDigits text.toList)
  same : digitsValue (depthDigits text.toList) = value
  fits : value < depthBound

inductive DepthFault (text : String) : DepthError → Prop
  | empty (none : text.toList = []) : DepthFault text .empty
  | sign (alone : text.toList = ['+']) : DepthFault text .invalidDigit
  | digit {taken c rest} (split : depthDigits text.toList = taken ++ c :: rest)
      (digits : ∀ d ∈ taken, Digit d) (fits : digitsValue taken < depthBound) (other : ¬ Digit c) :
      DepthFault text .invalidDigit
  | large {taken c rest} (split : depthDigits text.toList = taken ++ c :: rest)
      (digits : ∀ d ∈ taken, Digit d) (fits : digitsValue taken < depthBound) (digit : Digit c)
      (beyond : depthBound ≤ digitsValue (taken ++ [c])) : DepthFault text .tooLarge

def Marked (arg : String) : Prop := ['-', '-'] <+: arg.toList

instance (arg : String) : Decidable (Marked arg) := inferInstanceAs (Decidable (_ <+: _))

def optionNames : List String := ["--tokens", "--ast", "--bytecode", "--max-call-depth"]

inductive Group where
  | tokens
  | tree
  | code
  | depth (text : String) (value : Nat) (written : DepthText text value)
  | path (text : String) (plain : ¬ Marked text)
  deriving DecidableEq

namespace Group

def args : Group → List String
  | tokens => ["--tokens"]
  | tree => ["--ast"]
  | code => ["--bytecode"]
  | depth text _ _ => ["--max-call-depth", text]
  | path text _ => [text]

def depth? : Group → Option Nat
  | depth _ value _ => some value
  | _ => none

def path? : Group → Option String
  | path text _ => some text
  | _ => none

end Group

def written (groups : List Group) : List String := groups.flatMap Group.args

def depths (groups : List Group) : List Nat := groups.filterMap Group.depth?

def paths (groups : List Group) : List String := groups.filterMap Group.path?

/-- Arguments that begin with no complete group behind those taken, and what is wrong with them. -/
inductive Stuck (taken : List Group) : List String → OptionError → Prop
  | missing : Stuck taken ["--max-call-depth"] (.missingValue "--max-call-depth")
  | depth {text cause rest} (fault : DepthFault text cause) :
      Stuck taken ("--max-call-depth" :: text :: rest) (.invalidDepth text cause)
  | unknown {arg rest} (marked : Marked arg) (other : arg ∉ optionNames) :
      Stuck taken (arg :: rest) (.unknown arg)
  | second {arg rest} (plain : ¬ Marked arg) (before : paths taken ≠ []) :
      Stuck taken (arg :: rest) .secondPath

def Options.ofGroups (groups : List Group) : Options where
  showTokens := decide (.tokens ∈ groups)
  showTree := decide (.tree ∈ groups)
  showCode := decide (.code ∈ groups)
  callDepth := (depths groups).getLast?.getD 1000
  path := (paths groups).head?

section Depths

theorem digitsValueBehind (taken : List Char) (c : Char) :
    digitsValue (taken ++ [c]) = 10 * digitsValue taken + (c.toNat - '0'.toNat) := by
  simp [digitsValue, Nat.ofDigits_cons, Nat.add_comm]

theorem digitsValueGrows (taken rest : List Char) : digitsValue taken ≤ digitsValue (taken ++ rest) := by
  induction rest generalizing taken with
  | nil => rw [List.append_nil]
  | cons c rest ih =>
    have one : digitsValue taken ≤ digitsValue (taken ++ [c]) := by
      rw [digitsValueBehind]
      omega
    have more := ih (taken ++ [c])
    rw [List.append_assoc, List.singleton_append] at more
    exact Nat.le_trans one more

theorem readDigit {taken : List Char} {c : Char} (digit : Digit c) (rest : List Char) :
    readDepthDigits (digitsValue taken) (c :: rest) =
      if digitsValue (taken ++ [c]) < depthBound then readDepthDigits (digitsValue (taken ++ [c])) rest
      else .error .tooLarge := by
  rw [readDepthDigits, isDigitIff.mpr digit, digitsValueBehind]
  rfl

theorem readDigits (taken : List Char) {rest : List Char} (digits : ∀ c ∈ rest, Digit c)
    (fits : digitsValue (taken ++ rest) < depthBound) (more : List Char) :
    readDepthDigits (digitsValue taken) (rest ++ more) =
      readDepthDigits (digitsValue (taken ++ rest)) more := by
  induction rest generalizing taken with
  | nil => rw [List.append_nil, List.nil_append]
  | cons c rest ih =>
    obtain ⟨digit, others⟩ := List.forall_mem_cons.mp digits
    rw [← List.singleton_append, ← List.append_assoc] at fits ⊢
    have small : digitsValue (taken ++ [c]) < depthBound :=
      Nat.lt_of_le_of_lt (digitsValueGrows _ rest) fits
    rw [List.singleton_append, List.cons_append, readDigit digit, if_pos small, ih _ others fits]

variable {text : String}

theorem readDepthUnsigned (some : depthDigits text.toList ≠ []) :
    readDepth text = readDepthDigits (digitsValue []) (depthDigits text.toList) := by
  unfold readDepth
  split
  · rename_i none
    rw [none] at some
    exact absurd rfl some
  · rename_i sign
    rw [sign] at some
    exact absurd rfl some
  · rename_i signed
    rw [signed]
    rfl
  · rename_i unsigned
    have same : depthDigits text.toList = text.toList := by
      unfold depthDigits
      split
      · rename_i digits signed
        exact absurd signed (unsigned digits)
      · rfl
    rw [same]
    rfl

theorem depthTextRead {value : Nat} (good : DepthText text value) : readDepth text = .ok value := by
  obtain ⟨⟨some, digits⟩, rfl, fits⟩ := good
  have all := readDigits [] digits fits []
  rw [List.append_nil] at all
  rw [readDepthUnsigned some, all]
  rfl

theorem depthFaultRead {cause : DepthError} (bad : DepthFault text cause) :
    readDepth text = .error cause := by
  cases bad with
  | empty none => simp only [readDepth, none]
  | sign alone => simp only [readDepth, alone]
  | @digit taken c rest split digits fits other =>
    rw [readDepthUnsigned (by rw [split]; simp), split, readDigits [] digits fits, List.nil_append,
      readDepthDigits, if_pos]
    simpa using fun digit => other (isDigitIff.mp digit)
  | @large taken c rest split digits fits digit beyond =>
    rw [readDepthUnsigned (by rw [split]; simp), split, readDigits [] digits fits, List.nil_append,
      readDigit digit, if_neg (Nat.not_lt.mpr beyond)]

theorem digitsOrFault (taken rest : List Char)
    (split : depthDigits text.toList = taken ++ rest) (digits : ∀ c ∈ taken, Digit c)
    (fits : digitsValue taken < depthBound) :
    ((∀ c ∈ taken ++ rest, Digit c) ∧ digitsValue (taken ++ rest) < depthBound) ∨
      ∃ cause, DepthFault text cause := by
  induction rest generalizing taken with
  | nil => exact .inl (by rw [List.append_nil]; exact ⟨digits, fits⟩)
  | cons c rest ih =>
    by_cases digit : Digit c
    · by_cases small : digitsValue (taken ++ [c]) < depthBound
      · have all : ∀ d ∈ taken ++ [c], Digit d := by
          simpa [or_imp, forall_and] using ⟨digits, digit⟩
        have later := ih _ (by rw [split, List.append_assoc, List.singleton_append]) all small
        rwa [List.append_assoc, List.singleton_append] at later
      · exact .inr ⟨_, .large split digits fits digit (Nat.not_lt.mp small)⟩
    · exact .inr ⟨_, .digit split digits fits digit⟩

theorem depthSomehow (text : String) :
    (∃ value, DepthText text value) ∨ ∃ cause, DepthFault text cause := by
  by_cases none : depthDigits text.toList = []
  · refine .inr ?_
    unfold depthDigits at none
    split at none
    · rename_i signed
      exact ⟨_, .sign (by rw [signed, none])⟩
    · exact ⟨_, .empty none⟩
  · have start : digitsValue [] < depthBound := by decide
    rcases digitsOrFault [] _ rfl (by simp) start with ⟨digits, fits⟩ | fault
    · exact .inl ⟨_, ⟨none, digits⟩, rfl, fits⟩
    · exact .inr fault

end Depths

theorem writtenCons (g : Group) (groups : List Group) :
    written (g :: groups) = g.args ++ written groups := rfl

theorem pathsBehind (groups : List Group) (g : Group) :
    paths (groups ++ [g]) = paths groups ++ g.path?.toList := by
  simp only [paths, List.filterMap_append]
  cases g <;> rfl

theorem depthsBehind (groups : List Group) (g : Group) :
    depths (groups ++ [g]) = depths groups ++ g.depth?.toList := by
  simp only [depths, List.filterMap_append]
  cases g <;> rfl

theorem isOptionIff {arg : String} : Options.isOption arg = true ↔ Marked arg := by
  unfold Options.isOption Marked
  split
  · rename_i marked
    simp [marked]
  · rename_i other
    simp only [Bool.false_eq_true, false_iff]
    rintro ⟨rest, same⟩
    exact other rest same.symm

namespace Options

def take (o : Options) : Group → Except OptionError Options
  | .tokens => .ok { o with showTokens := true }
  | .tree => .ok { o with showTree := true }
  | .code => .ok { o with showCode := true }
  | .depth _ value _ => .ok { o with callDepth := value }
  | .path text _ => o.addPath text

theorem extendOther (o : Options) {arg : String} (other : arg ∉ optionNames) (rest : List String) :
    o.extend (arg :: rest) =
      if isOption arg then .error (.unknown arg) else o.addPath arg >>= (·.extend rest) := by
  simp only [optionNames, List.mem_cons, List.not_mem_nil, or_false, not_or] at other
  obtain ⟨noTokens, noTree, noCode, noDepth⟩ := other
  rw [extend]
  · cases o.addPath arg <;> rfl
  · exact noTokens
  · exact noTree
  · exact noCode
  · exact fun same _ => noDepth same
  · exact fun _ _ same _ => noDepth same

theorem plainOther {arg : String} (plain : ¬ Marked arg) : arg ∉ optionNames := by
  intro mem
  simp only [optionNames, List.mem_cons, List.not_mem_nil, or_false] at mem
  rcases mem with rfl | rfl | rfl | rfl <;> exact plain (by decide)

theorem extendGroup (o : Options) (g : Group) (rest : List String) :
    o.extend (g.args ++ rest) = o.take g >>= (·.extend rest) := by
  cases g with
  | tokens => rfl
  | tree => rfl
  | code => rfl
  | depth text value written =>
    simp only [Group.args, List.cons_append, List.nil_append, extend, depthTextRead written]
    rfl
  | path text plain =>
    have unmarked : isOption text = false :=
      Bool.eq_false_iff.mpr fun marked => plain (isOptionIff.mp marked)
    exact (extendOther o (plainOther plain) rest).trans (by rw [unmarked]; rfl)

theorem extendGroups (o : Options) (groups : List Group) (rest : List String) :
    o.extend (written groups ++ rest) = groups.foldlM take o >>= (·.extend rest) := by
  induction groups generalizing o with
  | nil => rfl
  | cons g groups ih =>
    rw [writtenCons, List.append_assoc, extendGroup, List.foldlM_cons, bind_assoc]
    exact congrArg (o.take g >>= ·) (funext ih)

theorem takeBehind {groups : List Group} (single : (paths groups).length ≤ 1) (g : Group) :
    (ofGroups groups).take g =
      if (paths (groups ++ [g])).length ≤ 1 then .ok (ofGroups (groups ++ [g]))
      else .error .secondPath := by
  rw [pathsBehind]
  cases g with
  | path text plain =>
    cases known : paths groups with
    | nil => simp [take, addPath, ofGroups, pathsBehind, depthsBehind, known, Group.path?, Group.depth?]
    | cons first others => simp [take, addPath, ofGroups, known, Group.path?]
  | _ => simp [take, ofGroups, pathsBehind, depthsBehind, single, Group.path?, Group.depth?]

theorem takeGroups (groups : List Group) :
    groups.foldlM take default =
      if (paths groups).length ≤ 1 then .ok (ofGroups groups) else .error .secondPath := by
  -- from the right, since the last depth is the one that counts
  induction groups using List.reverseRecOn with
  | nil => rfl
  | append_singleton groups g ih =>
    rw [List.foldlM_append, ih, pathsBehind]
    by_cases single : (paths groups).length ≤ 1
    · rw [if_pos single, ← pathsBehind, ← takeBehind single]
      exact bind_pure ((ofGroups groups).take g)
    · have more : ¬ (paths groups ++ g.path?.toList).length ≤ 1 := by
        rw [List.length_append]
        omega
      rw [if_neg single, if_neg more]
      rfl

theorem parseGroups (groups : List Group) (rest : List String) :
    parse (written groups ++ rest) =
      if (paths groups).length ≤ 1 then (ofGroups groups).extend rest else .error .secondPath := by
  rw [parse, extendGroups, takeGroups]
  split <;> rfl

theorem parseWritten (groups : List Group) :
    parse (written groups) =
      if (paths groups).length ≤ 1 then .ok (ofGroups groups) else .error .secondPath := by
  have whole := parseGroups groups []
  rwa [List.append_nil] at whole

theorem stuckFails {groups : List Group} {rest : List String} {e : OptionError}
    (stuck : Stuck groups rest e) : (ofGroups groups).extend rest = .error e := by
  cases stuck with
  | missing => rfl
  | depth fault => simp only [extend, depthFaultRead fault]
  | unknown marked other => rw [extendOther _ other, if_pos (isOptionIff.mpr marked)]
  | @second arg rest plain before =>
    have unmarked : ¬ isOption arg = true := fun marked => plain (isOptionIff.mp marked)
    obtain ⟨first, others, known⟩ := List.exists_cons_of_ne_nil before
    rw [extendOther _ (plainOther plain), if_neg unmarked]
    simp only [addPath, ofGroups, known, List.head?_cons]
    rfl

end Options

theorem singleBehind {taken : List Group} (single : (paths taken).length ≤ 1) {g : Group}
    (other : g.path? = none) : (paths (taken ++ [g])).length ≤ 1 := by
  rw [pathsBehind, other]
  simpa using single

theorem groupOrStuck {taken : List Group} (single : (paths taken).length ≤ 1) (arg : String)
    (rest : List String) :
    (∃ g later, arg :: rest = g.args ++ later ∧ (paths (taken ++ [g])).length ≤ 1) ∨
      ∃ e, Stuck taken (arg :: rest) e := by
  by_cases listed : arg ∈ optionNames
  · simp only [optionNames, List.mem_cons, List.not_mem_nil, or_false] at listed
    rcases listed with rfl | rfl | rfl | rfl
    · exact .inl ⟨.tokens, rest, rfl, singleBehind single rfl⟩
    · exact .inl ⟨.tree, rest, rfl, singleBehind single rfl⟩
    · exact .inl ⟨.code, rest, rfl, singleBehind single rfl⟩
    · cases rest with
      | nil => exact .inr ⟨_, .missing⟩
      | cons text rest =>
        rcases depthSomehow text with ⟨value, good⟩ | ⟨cause, fault⟩
        · exact .inl ⟨.depth text value good, rest, rfl, singleBehind single rfl⟩
        · exact .inr ⟨_, .depth fault⟩
  · by_cases marked : Marked arg
    · exact .inr ⟨_, .unknown marked listed⟩
    · by_cases before : paths taken = []
      · refine .inl ⟨.path arg marked, rest, rfl, ?_⟩
        rw [pathsBehind, before]
        exact Nat.le_refl 1
      · exact .inr ⟨_, .second marked before⟩

theorem groupsOrStuck (taken : List Group) (single : (paths taken).length ≤ 1) (args : List String) :
    ∃ more rest, args = written more ++ rest ∧ (paths (taken ++ more)).length ≤ 1 ∧
      (rest = [] ∨ ∃ e, Stuck (taken ++ more) rest e) := by
  induction size : args.length using Nat.strongRecOn generalizing taken args with
  | _ n ih =>
    subst size
    cases args with
    | nil => exact ⟨[], [], rfl, by rwa [List.append_nil], .inl rfl⟩
    | cons arg rest =>
      rcases groupOrStuck single arg rest with ⟨g, later, split, still⟩ | stuck
      · have shorter : later.length < (arg :: rest).length := by
          rw [split, List.length_append]
          cases g <;> simp [Group.args]
        obtain ⟨more, final, same, all, ends⟩ := ih _ shorter _ still later rfl
        rw [List.append_assoc, List.singleton_append] at all ends
        refine ⟨g :: more, final, ?_, all, ends⟩
        rw [split, same, writtenCons, List.append_assoc]
      · exact ⟨[], arg :: rest, rfl, by rwa [List.append_nil], .inr (by rwa [List.append_nil])⟩

theorem argumentsSplit (args : List String) :
    ∃ groups rest, args = written groups ++ rest ∧ (paths groups).length ≤ 1 ∧
      (rest = [] ∨ ∃ e, Stuck groups rest e) :=
  groupsOrStuck [] (Nat.zero_le 1) args

namespace Options

theorem parseOkIff {args : List String} {o : Options} :
    parse args = .ok o ↔
      ∃ groups, args = written groups ∧ (paths groups).length ≤ 1 ∧ o = ofGroups groups := by
  constructor
  · intro accepted
    obtain ⟨groups, rest, rfl, single, rfl | ⟨e, stuck⟩⟩ := argumentsSplit args
    · rw [List.append_nil, parseWritten, if_pos single] at accepted
      cases accepted
      exact ⟨groups, List.append_nil _, single, rfl⟩
    · rw [parseGroups, if_pos single, stuckFails stuck] at accepted
      cases accepted
  · intro split
    obtain ⟨groups, rfl, single, rfl⟩ := split
    rw [parseWritten, if_pos single]

theorem parseErrorIff {args : List String} {e : OptionError} :
    parse args = .error e ↔
      ∃ groups rest, args = written groups ++ rest ∧ (paths groups).length ≤ 1 ∧ Stuck groups rest e := by
  constructor
  · intro refused
    obtain ⟨groups, rest, rfl, single, rfl | ⟨other, stuck⟩⟩ := argumentsSplit args
    · rw [List.append_nil, parseWritten, if_pos single] at refused
      cases refused
    · have known := stuckFails stuck
      rw [parseGroups, if_pos single, known] at refused
      cases refused
      exact ⟨groups, rest, rfl, single, stuck⟩
  · intro split
    obtain ⟨groups, rest, rfl, single, stuck⟩ := split
    rw [parseGroups, if_pos single, stuckFails stuck]

theorem ofGroupsPerm {groups others : List Group} (moved : others.Perm groups)
    (last : (depths others).getLast? = (depths groups).getLast?) (single : (paths groups).length ≤ 1) :
    ofGroups others = ofGroups groups := by
  have placed : paths others = paths groups := by
    have alike : (paths others).Perm (paths groups) := moved.filterMap _
    cases known : paths groups with
    | nil =>
      rw [known] at alike
      exact alike.eq_nil
    | cons path none =>
      rw [known] at alike single
      obtain rfl : none = [] := by simpa using single
      exact List.perm_singleton.mp alike
  simp only [ofGroups, placed, last, moved.mem_iff]

end Options

theorem optionGroups (args : List String) :
    (∀ o, Options.parse args = .ok o ↔
        ∃ groups, args = written groups ∧ (paths groups).length ≤ 1 ∧ o = .ofGroups groups) ∧
      (∀ e, Options.parse args = .error e ↔
        ∃ groups rest, args = written groups ++ rest ∧ (paths groups).length ≤ 1 ∧ Stuck groups rest e) ∧
      ∀ groups others, args = written groups → others.Perm groups →
        (depths others).getLast? = (depths groups).getLast? →
        Options.parse (written others) = Options.parse args := by
  refine ⟨fun o => Options.parseOkIff, fun e => Options.parseErrorIff, ?_⟩
  intro groups others same moved last
  subst same
  have count : (paths others).length = (paths groups).length := (moved.filterMap _).length_eq
  rw [Options.parseWritten, Options.parseWritten, count]
  split
  · rename_i single
    rw [Options.ofGroupsPerm moved last single]
  · rfl

end CalcLang
