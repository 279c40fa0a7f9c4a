import Mathlib.Data.Nat.Digits.Lemmas
import Mathlib.Data.List.TakeWhile
import Mathlib.Tactic.Common

/-!
# Bytes, C strings and C numerals

The byte strings of a C or C++ program, the conversions between the integer types that such code
mixes (`int` to `size_t`, subtraction of `size_t`), the decimal rendering `std::to_string` and the
lenient reader `atoi`. On Linux with a 64-bit `long`, `atoi` is `strtol` in base ten cut to an
`int`; `atoi_toStringInt` is the round trip, and `strtol_digits` also allows text behind
the number.
-/

namespace NetProg.Lib

/-- A byte string; a `char` is its byte. -/
abbrev Bytes := List UInt8

/-- The bytes of a string literal of ASCII characters. -/
def literal (s : String) : Bytes := s.toList.map fun c => UInt8.ofNat c.toNat

/-- The C string that starts at a buffer: everything before the first NUL. -/
def cStr (s : Bytes) : Bytes := s.takeWhile (· ≠ 0)

theorem cStr_cons (c : UInt8) (s : Bytes) : cStr (c :: s) = if c = 0 then [] else c :: cStr s := by
  unfold cStr
  by_cases hc : c = 0 <;> simp [hc]

theorem cStr_take (n : ℕ) (s : Bytes) : cStr (s.take n) = (cStr s).take n := by
  induction s generalizing n with
  | nil => simp [cStr]
  | cons c s ih =>
    cases n with
    | zero => simp [cStr]
    | succ n =>
      rw [List.take_succ_cons, cStr_cons, cStr_cons, ih]
      split
      · rfl
      · rw [List.take_succ_cons]

theorem cStr_of_free {s : Bytes} (h : 0 ∉ s) : cStr s = s :=
  List.takeWhile_eq_self_iff.2 fun c hc => by
    simpa using fun h0 : c = 0 => h (h0 ▸ hc)

theorem cStr_append_zero (b x : Bytes) : cStr (b ++ 0 :: x) = cStr b := by
  unfold cStr
  rw [List.takeWhile_append]
  split
  · rename_i h
    rw [(List.takeWhile_prefix _).eq_of_length h]
    simp
  · rfl

theorem zero_not_mem_cStr (s : Bytes) : 0 ∉ cStr s := fun h => by
  simpa using List.mem_takeWhile_imp h

/-- C strings cut out of a text are all of it when no NUL is in it. -/
theorem flatMap_cStr_eq_iff (bs : List Bytes) : bs.flatMap cStr = bs.flatten ↔ 0 ∉ bs.flatten := by
  constructor
  · intro h h0
    rw [← h] at h0
    obtain ⟨b, -, hb⟩ := List.mem_flatMap.1 h0
    have := List.mem_takeWhile_imp hb
    simp at this
  · intro h
    induction bs with
    | nil => rfl
    | cons b bs ih =>
      rw [List.flatten_cons, List.mem_append, not_or] at h
      rw [List.flatMap_cons, List.flatten_cons, cStr_of_free h.1, ih h.2]

/-- The text that `snprintf` leaves in an array of `n` bytes. -/
def snprintf (n : ℕ) (text : Bytes) : Bytes := text.take (n - 1)

/-- What is printed with `%s` at the end comes out whole when it is a text, and short enough. -/
theorem snprintf_cStr_eq_iff {n : ℕ} (hn : 0 < n) (u s : Bytes) :
    snprintf n (u ++ cStr s) = u ++ s ↔ 0 ∉ s ∧ (u ++ s).length < n := by
  constructor
  · intro h
    have hlen := congrArg List.length h
    rw [snprintf, List.length_take, List.length_append, List.length_append] at hlen
    have hle : s.length ≤ (cStr s).length := by omega
    have hcut : cStr s = s := (List.takeWhile_prefix _).eq_of_length_le hle
    refine ⟨hcut ▸ zero_not_mem_cStr s, ?_⟩
    rw [List.length_append]
    omega
  · rintro ⟨hfree, hlen⟩
    rw [cStr_of_free hfree]
    exact List.take_of_length_le (Nat.le_pred_of_lt hlen)

/-! ## Sizes -/

/-- An `int` used as a `size_t`: a negative one becomes huge. -/
def toSize (n : Int32) : ℕ := (n.toInt % 2 ^ 64).toNat

/-- The difference of two sizes, wrapping below zero. -/
def subSize (a b : ℕ) : ℕ := if b ≤ a then a - b else 2 ^ 64 + a - b

theorem toSize_of_nonneg {n : Int32} (h : 0 ≤ n.toInt) : toSize n = n.toInt.toNat := by
  have := n.toInt_lt
  unfold toSize
  rw [Int.emod_eq_of_lt h (by omega)]

theorem le_toSize_of_neg {n : Int32} (h : n.toInt < 0) : 2 ^ 64 - 2 ^ 31 ≤ toSize n := by
  have := n.le_toInt
  unfold toSize
  omega

theorem toSize_lt_of_nonneg {n : Int32} (h : 0 ≤ n.toInt) : toSize n < 2 ^ 31 := by
  have := n.toInt_lt
  rw [toSize_of_nonneg h]
  omega

theorem subSize_of_le {a b : ℕ} (h : b ≤ a) : subSize a b = a - b := if_pos h

/-! ## Decimal rendering -/

/-- The digit character of a number below ten. -/
def digitChar (d : ℕ) : UInt8 := UInt8.ofNat (48 + d)

/-- `std::to_string` of a `size_t`. -/
def decimal (n : ℕ) : Bytes :=
  if n = 0 then [48] else (Nat.digits 10 n).reverse.map digitChar

/-- `std::to_string` of an `int`. -/
def toStringInt (z : Int32) : Bytes :=
  if z.toInt < 0 then 45 :: decimal z.toInt.natAbs else decimal z.toInt.natAbs

def isDigit (c : UInt8) : Bool := 48 ≤ c && c ≤ 57

/-- The white space of the C locale. -/
def isSpace (c : UInt8) : Bool := c = 32 || (9 ≤ c && c ≤ 13)

theorem digitChar_toNat {d : ℕ} (h : d < 10) : (digitChar d).toNat = 48 + d := by
  simp only [digitChar, UInt8.toNat_ofNat']
  omega

theorem isDigit_iff {c : UInt8} : isDigit c = true ↔ 48 ≤ c.toNat ∧ c.toNat ≤ 57 := by
  simp [isDigit, UInt8.le_iff_toNat_le]

theorem isDigit_digitChar {d : ℕ} (h : d < 10) : isDigit (digitChar d) = true := by
  rw [isDigit_iff, digitChar_toNat h]; omega

theorem decimal_ne_nil (n : ℕ) : decimal n ≠ [] := by
  unfold decimal
  split
  · simp
  · rename_i h
    simpa using Nat.digits_ne_nil_iff_ne_zero.2 h

theorem isDigit_of_mem_decimal {n : ℕ} {c : UInt8} (h : c ∈ decimal n) : isDigit c = true := by
  unfold decimal at h
  split at h
  · obtain rfl : c = 48 := by simpa using h
    decide
  · obtain ⟨d, hd, rfl⟩ := List.mem_map.1 h
    exact isDigit_digitChar (Nat.digits_lt_base (by decide) (List.mem_reverse.1 hd))

theorem length_decimal_le {n k : ℕ} (hk : 0 < k) (h : n < 10 ^ k) : (decimal n).length ≤ k := by
  unfold decimal
  split
  · exact hk
  · simpa using (Nat.digits_length_le_iff (by decide) n).2 h

theorem length_toStringInt_le (z : Int32) : (toStringInt z).length ≤ 11 := by
  have h1 := z.toInt_lt
  have h2 := z.le_toInt
  have := length_decimal_le (n := z.toInt.natAbs) (k := 10) (by decide) (by omega)
  unfold toStringInt
  split <;> simp <;> omega

theorem mem_toStringInt {z : Int32} {c : UInt8} (h : c ∈ toStringInt z) :
    c = 45 ∨ isDigit c = true := by
  unfold toStringInt at h
  split at h
  · exact (List.mem_cons.1 h).imp id isDigit_of_mem_decimal
  · exact Or.inr (isDigit_of_mem_decimal h)

/-! ## Reading a numeral -/

/-- The value of a string of digits. -/
def digitsVal (ds : Bytes) : ℕ := ds.foldl (fun n c => 10 * n + (c.toNat - 48)) 0

/-- An optional sign: whether it is a minus, and what stands behind it. -/
def sign : Bytes → Bool × Bytes
  | 45 :: s => (true, s)
  | 43 :: s => (false, s)
  | s => (false, s)

/-- `strtol` in base ten, saturating at the ends of a 64-bit `long`. -/
def strtol (s : Bytes) : ℤ :=
  let (neg, s) := sign (s.dropWhile isSpace)
  let n : ℤ := digitsVal (s.takeWhile isDigit)
  max (-2 ^ 63) (min (2 ^ 63 - 1) (if neg then -n else n))

/-- `atoi`: `strtol` cut to an `int`. -/
def atoi (s : Bytes) : Int32 := Int32.ofInt (strtol s)

theorem digitsVal_decimal (n : ℕ) : digitsVal (decimal n) = n := by
  unfold digitsVal decimal
  split
  · rename_i h; simp [h]
  · rw [List.foldl_map, List.foldl_reverse]
    conv_rhs => rw [← Nat.ofDigits_digits 10 n, Nat.ofDigits_eq_foldr]
    have key : ∀ l : List ℕ, (∀ d ∈ l, d < 10) →
        l.foldr (fun d m => 10 * m + ((digitChar d).toNat - 48)) 0 =
          l.foldr (fun d m => (d : ℕ) + 10 * m) 0 := by
      intro l
      induction l with
      | nil => intro _; rfl
      | cons d l ih =>
        intro hl
        simp only [List.foldr_cons]
        rw [ih fun x hx => hl x (List.mem_cons_of_mem _ hx), digitChar_toNat (hl d (by simp))]
        omega
    simpa using key _ fun d hd => Nat.digits_lt_base (by decide) hd

theorem digit_plain {c : UInt8} (h : isDigit c = true) : isSpace c = false ∧ c ≠ 45 ∧ c ≠ 43 := by
  rw [isDigit_iff] at h
  refine ⟨?_, ?_, ?_⟩
  · simp only [isSpace, Bool.or_eq_false_iff, Bool.and_eq_false_iff, decide_eq_false_iff_not,
      UInt8.le_iff_toNat_le]
    refine ⟨fun hc => ?_, Or.inr fun hc => ?_⟩
    · rw [hc] at h; exact absurd h (by decide)
    · have : (13 : UInt8).toNat = 13 := rfl
      omega
  · rintro rfl; exact absurd h (by decide)
  · rintro rfl; exact absurd h (by decide)

theorem takeWhile_digits {ds rest : Bytes} (hds : ∀ c ∈ ds, isDigit c = true)
    (hrest : ∀ c ∈ rest.head?, isDigit c = false) :
    (ds ++ rest).takeWhile isDigit = ds := by
  rw [List.takeWhile_append_of_pos hds]
  cases rest with
  | nil => simp
  | cons c rest => simp [hrest c (by simp)]

theorem strtol_of_sign {s ds rest : Bytes} {neg : Bool}
    (hs : sign (s.dropWhile isSpace) = (neg, ds ++ rest)) (hds : ∀ c ∈ ds, isDigit c = true)
    (hrest : ∀ c ∈ rest.head?, isDigit c = false) :
    strtol s = max (-2 ^ 63) (min (2 ^ 63 - 1)
      (if neg then -(digitsVal ds : ℤ) else (digitsVal ds : ℤ))) := by
  simp only [strtol, hs, takeWhile_digits hds hrest]

theorem strtol_digits {ds rest : Bytes} (hne : ds ≠ []) (hds : ∀ c ∈ ds, isDigit c = true)
    (hrest : ∀ c ∈ rest.head?, isDigit c = false) :
    strtol (ds ++ rest) = max (-2 ^ 63) (min (2 ^ 63 - 1) (digitsVal ds : ℤ)) := by
  obtain ⟨c, ds', hd⟩ := List.exists_cons_of_ne_nil hne
  have hc := digit_plain (hds c (by simp [hd]))
  have hsp : (ds ++ rest).dropWhile isSpace = ds ++ rest := by
    rw [hd, List.cons_append, List.dropWhile_cons_of_neg (by simp [hc.1])]
  have hsg : sign ((ds ++ rest).dropWhile isSpace) = (false, ds ++ rest) := by
    rw [hsp, hd, List.cons_append]
    unfold sign
    split <;> simp_all
  rw [strtol_of_sign hsg hds hrest, if_neg Bool.false_ne_true]

theorem strtol_neg_digits {ds rest : Bytes} (hds : ∀ c ∈ ds, isDigit c = true)
    (hrest : ∀ c ∈ rest.head?, isDigit c = false) :
    strtol (45 :: ds ++ rest) = max (-2 ^ 63) (min (2 ^ 63 - 1) (-(digitsVal ds : ℤ))) := by
  have hsp : (45 :: ds ++ rest).dropWhile isSpace = 45 :: ds ++ rest :=
    List.dropWhile_cons_of_neg (by decide)
  have hsg : sign ((45 :: ds ++ rest).dropWhile isSpace) = (true, ds ++ rest) := by
    rw [hsp]; rfl
  rw [strtol_of_sign hsg hds hrest, if_pos rfl]

theorem strtol_digits_nil {ds : Bytes} (hne : ds ≠ []) (hds : ∀ c ∈ ds, isDigit c = true) :
    strtol ds = max (-2 ^ 63) (min (2 ^ 63 - 1) (digitsVal ds : ℤ)) := by
  have h : ∀ c ∈ ([] : Bytes).head?, isDigit c = false := by simp
  simpa using strtol_digits hne hds h

theorem strtol_neg_digits_nil {ds : Bytes} (hds : ∀ c ∈ ds, isDigit c = true) :
    strtol (45 :: ds) = max (-2 ^ 63) (min (2 ^ 63 - 1) (-(digitsVal ds : ℤ))) := by
  have h : ∀ c ∈ ([] : Bytes).head?, isDigit c = false := by simp
  simpa using strtol_neg_digits hds h

/-- **The reader undoes the rendering.** -/
theorem strtol_decimal {n : ℕ} (hn : n < 2 ^ 63) : strtol (decimal n) = n := by
  rw [strtol_digits_nil (decimal_ne_nil n) fun c hc => isDigit_of_mem_decimal hc, digitsVal_decimal]
  omega

theorem strtol_neg_decimal {n : ℕ} (hn : n < 2 ^ 63) : strtol (45 :: decimal n) = -n := by
  rw [strtol_neg_digits_nil fun c hc => isDigit_of_mem_decimal hc, digitsVal_decimal]
  omega

theorem atoi_decimal {n : ℕ} (hn : n < 2 ^ 31) : atoi (decimal n) = Int32.ofInt n := by
  rw [atoi, strtol_decimal (by omega)]

/-- **Round trip of an `int`.** -/
theorem atoi_toStringInt (z : Int32) : atoi (toStringInt z) = z := by
  have h1 := z.toInt_lt
  have h2 := z.le_toInt
  have hval : strtol (toStringInt z) = z.toInt := by
    unfold toStringInt
    split
    · rw [strtol_neg_decimal (by omega)]; omega
    · rw [strtol_decimal (by omega)]; omega
  rw [atoi, hval, Int32.ofInt_toInt]

/-! ## A numeral that goes on -/

theorem digitsVal_concat (ds : Bytes) (c : UInt8) :
    digitsVal (ds ++ [c]) = 10 * digitsVal ds + (c.toNat - 48) := by
  simp [digitsVal]

theorem le_digitsVal_append (ds es : Bytes) :
    digitsVal ds * 10 ^ es.length ≤ digitsVal (ds ++ es) := by
  induction es using List.reverseRecOn with
  | nil => simp
  | append_singleton es c ih =>
    rw [← List.append_assoc, digitsVal_concat, List.length_append, List.length_singleton, pow_succ]
    calc digitsVal ds * (10 ^ es.length * 10) = 10 * (digitsVal ds * 10 ^ es.length) := by ring
      _ ≤ 10 * digitsVal (ds ++ es) := Nat.mul_le_mul_left _ ih
      _ ≤ 10 * digitsVal (ds ++ es) + (c.toNat - 48) := Nat.le_add_right _ _

theorem sign_append {s : Bytes} (hs : s ≠ []) (w : Bytes) :
    sign (s ++ w) = ((sign s).1, (sign s).2 ++ w) := by
  obtain ⟨c, s, rfl⟩ := List.exists_cons_of_ne_nil hs
  rw [List.cons_append]
  unfold sign
  split <;> simp_all

/-- What a text behind the first character that is no white space adds to the value read. -/
theorem strtol_append {s : Bytes} (hs : s.dropWhile isSpace ≠ []) (w : Bytes) :
    strtol (s ++ w) = max (-2 ^ 63) (min (2 ^ 63 - 1)
      (if (sign (s.dropWhile isSpace)).1
        then -(digitsVal (((sign (s.dropWhile isSpace)).2 ++ w).takeWhile isDigit) : ℤ)
        else digitsVal (((sign (s.dropWhile isSpace)).2 ++ w).takeWhile isDigit))) := by
  have hdrop : (s ++ w).dropWhile isSpace = s.dropWhile isSpace ++ w := by
    rw [List.dropWhile_append, if_neg (by simpa using hs)]
  simp only [strtol, hdrop, sign_append hs]

/-- **A short continuation is enough**: what some text makes of a numeral that it continues, at
most twenty digits make of it too, or else they make it zero. -/
theorem exists_digits_strtol (s w : Bytes) : ∃ ds : Bytes, (∀ c ∈ ds, isDigit c = true) ∧
    ds.length ≤ 20 ∧ (strtol (s ++ ds) = strtol (s ++ w) ∨ strtol (s ++ ds) = 0) := by
  by_cases hs : s.dropWhile isSpace = []
  · refine ⟨[48], fun c hc => List.mem_singleton.1 hc ▸ rfl, le_add_self, Or.inr ?_⟩
    have hdrop : (s ++ [48]).dropWhile isSpace = [48] := by
      rw [List.dropWhile_append, if_pos (by simpa using hs)]
      rfl
    simp only [strtol, hdrop]
    rfl
  · simp only [strtol_append hs]
    generalize (sign (s.dropWhile isSpace)).2 = d
    generalize (sign (s.dropWhile isSpace)).1 = neg
    by_cases hd : (d.takeWhile isDigit).length = d.length
    · have htake : ∀ x : Bytes, (d ++ x).takeWhile isDigit = d ++ x.takeWhile isDigit := fun x => by
        rw [List.takeWhile_append, if_pos hd]
      have hall : ∀ ds : Bytes, (∀ c ∈ ds, isDigit c = true) → ds.takeWhile isDigit = ds :=
        fun ds h => List.takeWhile_eq_self_iff.2 h
      have hw : ∀ c ∈ w.takeWhile isDigit, isDigit c = true := fun c hc => List.mem_takeWhile_imp hc
      simp only [htake]
      by_cases hlen : (w.takeWhile isDigit).length ≤ 20
      · exact ⟨w.takeWhile isDigit, hw, hlen, Or.inl (by rw [hall _ hw])⟩
      · by_cases h0 : digitsVal d = 0
        · refine ⟨[], by simp, by simp, Or.inr ?_⟩
          simp [h0]
        · -- both numbers are beyond the ends of a `long`
          have htk : ∀ c ∈ (w.takeWhile isDigit).take 20, isDigit c = true := fun c hc =>
            hw c (List.mem_of_mem_take hc)
          have hbig : ∀ es : Bytes, 20 ≤ es.length → 2 ^ 63 ≤ digitsVal (d ++ es) := by
            intro es hes
            have h1 := le_digitsVal_append d es
            have h2 : 10 ^ 20 ≤ 10 ^ es.length := Nat.pow_le_pow_right (by decide) hes
            have h3 := Nat.mul_le_mul (Nat.one_le_iff_ne_zero.2 h0) h2
            omega
          have hlen20 : ((w.takeWhile isDigit).take 20).length = 20 := by
            rw [List.length_take]; omega
          refine ⟨(w.takeWhile isDigit).take 20, htk, hlen20.le, Or.inl ?_⟩
          have hb1 := hbig ((w.takeWhile isDigit).take 20) hlen20.ge
          have hb2 := hbig (w.takeWhile isDigit) (by omega)
          rw [hall _ htk]
          generalize digitsVal (d ++ (w.takeWhile isDigit).take 20) = a at hb1
          generalize digitsVal (d ++ w.takeWhile isDigit) = b at hb2
          cases neg
          · simp only [Bool.false_eq_true, if_false]; omega
          · simp only [if_true]; omega
    · refine ⟨[], by simp, by simp, Or.inl ?_⟩
      have htake : ∀ x : Bytes, (d ++ x).takeWhile isDigit = d.takeWhile isDigit := fun x => by
        rw [List.takeWhile_append, if_neg hd]
      simp only [htake]

end NetProg.Lib
