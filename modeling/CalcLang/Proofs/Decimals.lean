import CalcLang.Proofs.Lexemes

/-! Decimals read back. What is read depends on the number a decimal stands for and not on how it is
spelled, the exact value of a magnitude is read as that magnitude, and a rounded decimal is shown only
after it has been read. So whatever is shown for a finite magnitude is read as that magnitude, digit
by digit. -/
namespace CalcLang

namespace Binary64

theorem roundDivScaled (num den : Nat) {k : Nat} (positive : 0 < k) :
    roundDiv (num * k) (den * k) = roundDiv num den := by
  have less : 2 * (num % den * k) < den * k ↔ 2 * (num % den) < den := by
    rw [← Nat.mul_assoc]
    exact Nat.mul_lt_mul_right positive
  have half : 2 * (num % den * k) = den * k ↔ 2 * (num % den) = den := by
    rw [← Nat.mul_assoc]
    exact Nat.mul_left_inj (Nat.ne_of_gt positive)
  unfold roundDiv
  rw [Nat.mul_div_mul_right num den positive, Nat.mul_mod_mul_right]
  simp only [less, half]

theorem roundDivExact (n : Nat) {den : Nat} (positive : 0 < den) : roundDiv (n * den) den = n := by
  unfold roundDiv
  rw [Nat.mul_div_cancel n positive, Nat.mul_mod_left]
  exact if_pos (.inl positive)

theorem nearestScaled (num den : Nat) {k : Nat} (positive : 0 < k) :
    nearest (num * k) (den * k) = nearest num den := by
  unfold nearest
  dsimp only
  rw [Nat.mul_right_comm num k, Nat.mul_div_mul_right _ _ positive, Nat.mul_right_comm den k,
    roundDivScaled _ _ positive]

theorem binadePower : binade = 2 ^ 52 := by decide

theorem tenSplit (n : Nat) : tenPower n = 5 ^ n * 2 ^ n := by
  rw [← Nat.mul_pow]
  rfl

theorem tenPositive (n : Nat) : 0 < tenPower n := Nat.pow_pos (by decide)

theorem wordParts (word : Nat) : shift word * binade + significand word = word := by
  have parts := Nat.div_add_mod word binade
  unfold shift significand
  split
  · rename_i small
    rw [Nat.div_eq_of_lt small]
    omega
  · rename_i large
    have one : 1 ≤ word / binade := (Nat.le_div_iff_mul_le (by decide)).mpr (by omega)
    have split : word / binade * binade = (word / binade - 1) * binade + binade := by
      rw [← Nat.succ_mul, Nat.succ_eq_add_one, Nat.sub_add_cancel one]
    rw [Nat.mul_comm] at parts
    omega

theorem unitsLog (word : Nat) : (significand word * 2 ^ shift word).log2 - 52 = shift word := by
  have low : 0 < 2 ^ shift word := Nat.pow_pos (by decide)
  by_cases small : word < binade
  · have none : shift word = 0 := by rw [shift, Nat.div_eq_of_lt small]
    rw [none, significand, if_pos small, Nat.pow_zero, Nat.mul_one]
    by_cases zero : word = 0
    · rw [zero]
      rfl
    · rw [binadePower, ← Nat.log2_lt zero] at small
      omega
  · have rest : word % binade < binade := Nat.mod_lt _ (by decide)
    have bounds : 2 ^ 52 ≤ significand word ∧ significand word < 2 ^ 53 := by
      rw [significand, if_neg small]
      rw [binadePower] at rest ⊢
      omega
    have some : 0 < significand word := by omega
    have log : (significand word * 2 ^ shift word).log2 = 52 + shift word := by
      rw [Nat.log2_eq_iff (Nat.ne_of_gt (Nat.mul_pos some low)), Nat.add_right_comm, Nat.pow_add,
        Nat.pow_add _ (52 + 1)]
      exact ⟨Nat.mul_le_mul_right _ bounds.1, Nat.mul_lt_mul_of_pos_right bounds.2 low⟩
    rw [log, Nat.add_sub_cancel_left]

theorem unitsDecimal (m s u : Nat) : m * Nat.pow 2 (s - u) * Nat.pow 5 (u - s) * Nat.pow 2 u =
    m * 2 ^ s * tenPower (u - s) := by
  have powers : 2 ^ (s - u) * 2 ^ u = 2 ^ s * 2 ^ (u - s) := by
    rw [← Nat.pow_add, ← Nat.pow_add]
    exact congrArg (2 ^ ·) (by omega)
  calc m * 2 ^ (s - u) * 5 ^ (u - s) * 2 ^ u
      = m * (2 ^ (s - u) * 2 ^ u) * 5 ^ (u - s) := by rw [Nat.mul_right_comm, Nat.mul_assoc m]
    _ = m * 2 ^ s * (5 ^ (u - s) * 2 ^ (u - s)) := by
        rw [powers, Nat.mul_comm (5 ^ _)]
        simp only [Nat.mul_assoc]
    _ = m * 2 ^ s * tenPower (u - s) := by rw [tenSplit]

theorem nearestUnits {num den m s : Nat} (positive : 0 < den)
    (units : num * Nat.pow 2 unitPlaces = m * 2 ^ s * den) (log : (m * 2 ^ s).log2 - 52 = s) :
    nearest num den = min (s * binade + m) infinity := by
  have place : 0 < den * 2 ^ s := Nat.mul_pos positive (Nat.pow_pos (by decide))
  have round : roundDiv (m * 2 ^ s * den) (den * Nat.pow 2 s) = m := by
    rw [Nat.mul_assoc, Nat.mul_comm (2 ^ s)]
    exact roundDivExact m place
  unfold nearest
  dsimp only
  rw [units, Nat.mul_div_cancel _ positive, log, round]

theorem ofDecimalExact {word : Nat} (finite : word < infinity) : ofDecimal (exact word) = word := by
  have units : (exact word).coeff * Nat.pow 2 unitPlaces =
      significand word * 2 ^ shift word * tenPower (exact word).scale := by
    unfold exact
    exact unitsDecimal (significand word) (shift word) unitPlaces
  unfold ofDecimal
  rw [nearestUnits (tenPositive _) units (unitsLog word), wordParts, Nat.min_eq_left (Nat.le_of_lt finite)]

theorem neighbourReads {reads : Decimal → Bool} {nearer : Bool} {lower upper d : Decimal}
    (found : neighbour? reads nearer lower upper = some d) : reads d = true := by
  unfold neighbour? at found
  split at found
  · rename_i low high
    split at found <;> cases found
    · exact low
    · exact high
  · rename_i low high
    cases found
    exact low
  · rename_i low high
    cases found
    exact high
  · cases found

theorem roundedReads {word length count : Nat} {value d : Decimal}
    (found : rounded? word value length count = some d) : ofDecimal d = word := by
  unfold rounded? at found
  have reads := neighbourReads found
  exact eq_of_beq reads

theorem ofDecimalShortest {word : Nat} (finite : word < infinity) : ofDecimal (shortest word) = word := by
  unfold shortest
  dsimp only
  cases found : (List.range digitLimit).findSome? fun n =>
      rounded? word (exact word) (Nat.toDigits 10 (exact word).coeff).length (n + 1) with
  | none => exact ofDecimalExact finite
  | some d =>
    obtain ⟨n, _, rounded⟩ := List.exists_of_findSome?_eq_some found
    exact roundedReads rounded

end Binary64

namespace Decimal

open Binary64 (ofDecimal)

theorem dropZerosReads (coeff scale : Nat) : ofDecimal (dropZeros coeff scale) = ofDecimal ⟨coeff, scale⟩ := by
  induction scale generalizing coeff with
  | zero => rfl
  | succ scale ih =>
    unfold dropZeros
    split
    · rename_i zero
      have whole : coeff / 10 * 10 = coeff := Nat.div_mul_cancel (Nat.dvd_of_mod_eq_zero zero)
      have scaled := Binary64.nearestScaled (coeff / 10) (tenPower scale) (by decide : 0 < 10)
      rw [whole] at scaled
      exact (ih (coeff / 10)).trans scaled.symm
    · rfl

theorem reducedReads (d : Decimal) : ofDecimal d.reduced = ofDecimal d := dropZerosReads d.coeff d.scale

theorem toDigitsDigits (n : Nat) : IsDigits (Nat.toDigits 10 n) :=
  ⟨Nat.toDigits_ne_nil, fun _ mem => isDigitIff.mp (Nat.isDigit_of_mem_toDigits (by decide) (by decide) mem)⟩

theorem wholeIsDigits (d : Decimal) : IsDigits d.wholeDigits := toDigitsDigits _

theorem fractionPadded (d : Decimal) : d.fractionDigits =
    List.replicate (d.scale - (Nat.toDigits 10 (d.coeff % tenPower d.scale)).length) '0' ++
      Nat.toDigits 10 (d.coeff % tenPower d.scale) := rfl

theorem fractionIsDigits (d : Decimal) : IsDigits d.fractionDigits := by
  rw [fractionPadded]
  refine ⟨fun empty => Nat.toDigits_ne_nil (List.append_eq_nil_iff.mp empty).2, ?_⟩
  refine List.forall_mem_append.mpr ⟨fun c mem => ?_, (toDigitsDigits _).2⟩
  rw [List.eq_of_mem_replicate mem]
  decide

theorem fractionLength (d : Decimal) : d.fractionDigits.length = max d.scale 1 := by
  rw [fractionPadded, List.length_append, List.length_replicate]
  have positive : 0 < (Nat.toDigits 10 (d.coeff % tenPower d.scale)).length := Nat.length_toDigits_pos
  by_cases zero : d.scale = 0
  · rw [zero]
    have none : d.coeff % tenPower 0 = 0 := Nat.mod_one _
    rw [none]
    rfl
  · have small : (Nat.toDigits 10 (d.coeff % tenPower d.scale)).length ≤ d.scale :=
      (Nat.length_toDigits_le_iff (by decide) (by omega)).mpr (Nat.mod_lt _ (Binary64.tenPositive _))
    omega

theorem ofDigitsWritten (d : Decimal) : ofDigits d.wholeDigits d.fractionDigits =
    ⟨10 ^ max d.scale 1 * (d.coeff / tenPower d.scale) + d.coeff % tenPower d.scale, max d.scale 1⟩ := by
  have fraction : Nat.ofDigitChars 10 d.fractionDigits 0 = d.coeff % tenPower d.scale := by
    rw [fractionPadded, Nat.ofDigitChars_append, Nat.ofDigitChars_replicate_zero, Nat.mul_zero,
      Nat.ofDigitChars_ten_toDigits]
  unfold ofDigits wholeDigits
  rw [Nat.ofDigitChars_append, Nat.ofDigitChars_ten_toDigits, Nat.ofDigitChars_eq_ofDigitChars_zero,
    fraction, fractionLength]

theorem positionalReads (d : Decimal) :
    ofDecimal (ofDigits d.wholeDigits d.fractionDigits) = ofDecimal d := by
  obtain ⟨coeff, scale⟩ := d
  rw [ofDigitsWritten]
  cases scale with
  | zero =>
    have whole : 10 ^ 1 * (coeff / 1) + coeff % 1 = coeff * 10 := by omega
    have scaled := Binary64.nearestScaled coeff 1 (by decide : 0 < 10)
    rw [← whole] at scaled
    exact scaled
  | succ scale =>
    have parts := Nat.div_add_mod coeff (tenPower (scale + 1))
    have place : max (scale + 1) 1 = scale + 1 := by omega
    dsimp only
    rw [place]
    exact congrArg (fun n => ofDecimal ⟨n, scale + 1⟩) parts

end Decimal
end CalcLang
