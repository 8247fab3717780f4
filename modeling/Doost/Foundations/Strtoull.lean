import Mathlib.Data.List.TakeWhile
import Doost.Foundations.Decimal

/-!
# Numbers from text, as the C library reads them

`strtoull` in base 10 and the C locale, with a 64-bit `unsigned long long`: white space, a sign, and
as many digits as there are. The declarative side is `IsNumeral text rest value`, that `text` is a
numeral for `value` followed by `rest`; `converts_iff` says that this is what `strtoull` accepts.
A number with a minus sign is taken modulo `2 ^ 64`, so that it is no error.
-/

namespace Doost.Strtoull

open Decimal

/-- `isspace`. -/
def IsSpace (c : Char) : Prop := c.toNat = 32 ∨ 9 ≤ c.toNat ∧ c.toNat ≤ 13

instance : DecidablePred IsSpace := fun _ => inferInstanceAs (Decidable (_ ∨ _))

/-- The parts of a text. -/
structure Parts where
  spaces : List Char
  sign : List Char
  digits : List Char
  rest : List Char

/-- The sign, if there is one, and what follows it. -/
def splitSign : List Char → List Char × List Char
  | '-' :: cs => (['-'], cs)
  | '+' :: cs => (['+'], cs)
  | cs => ([], cs)

def split (text : List Char) : Parts :=
  let signed := splitSign (text.dropWhile fun c => IsSpace c)
  ⟨text.takeWhile fun c => IsSpace c, signed.1, signed.2.takeWhile fun c => IsDigit c,
    signed.2.dropWhile fun c => IsDigit c⟩

/-- The number, modulo `2 ^ 64`. -/
def signedValue (sign : List Char) (magnitude : ℕ) : BitVec 64 :=
  if sign = ['-'] then -BitVec.ofNat 64 magnitude else BitVec.ofNat 64 magnitude

/-- What `strtoull` returns, how far behind the text's beginning it sets `*end`, and whether it
sets `errno` to `ERANGE`. -/
structure Conversion where
  value : BitVec 64
  consumed : ℕ
  outOfRange : Bool
deriving DecidableEq, Repr

def strtoull (text : List Char) : Conversion :=
  let parts := split text
  let consumed := parts.spaces.length + parts.sign.length + parts.digits.length
  if parts.digits = [] then ⟨0, 0, false⟩
  else if 2 ^ 64 ≤ read parts.digits then ⟨BitVec.allOnes 64, consumed, true⟩
  else ⟨signedValue parts.sign (read parts.digits), consumed, false⟩

/-! ## Numerals -/

/-- The text consists of these parts, and the digits are as many as there are. -/
structure IsSplit (text : List Char) (parts : Parts) : Prop where
  append : parts.spaces ++ (parts.sign ++ (parts.digits ++ parts.rest)) = text
  spaces : ∀ c ∈ parts.spaces, IsSpace c
  sign : parts.sign = [] ∨ parts.sign = ['+'] ∨ parts.sign = ['-']
  digits : ∀ c ∈ parts.digits, IsDigit c
  ne_nil : parts.digits ≠ []
  rest : ∀ c, parts.rest.head? = some c → ¬ IsDigit c

/-- The text is a numeral for `value`, followed by `rest`. -/
def IsNumeral (text rest : List Char) (value : BitVec 64) : Prop :=
  ∃ parts, IsSplit text parts ∧ parts.rest = rest ∧ read parts.digits < 2 ^ 64 ∧
    value = signedValue parts.sign (read parts.digits)

variable {text rest : List Char} {parts : Parts} {value : BitVec 64} {c : Char} {n : ℕ}

theorem not_isSpace_of_isDigit (h : IsDigit c) : ¬ IsSpace c := by
  obtain ⟨hle, -⟩ := h
  have h0 : '0'.toNat = 48 := rfl
  unfold IsSpace
  omega

theorem splitSign_append (cs : List Char) : (splitSign cs).1 ++ (splitSign cs).2 = cs := by
  unfold splitSign
  split <;> rfl

theorem splitSign_sign (cs : List Char) :
    (splitSign cs).1 = [] ∨ (splitSign cs).1 = ['+'] ∨ (splitSign cs).1 = ['-'] := by
  unfold splitSign
  split <;> simp

theorem splitSign_of_isDigit {cs : List Char} (h : IsDigit c) :
    splitSign (c :: cs) = ([], c :: cs) := by
  have hminus : c ≠ '-' := by
    rintro rfl
    exact absurd h (by decide)
  have hplus : c ≠ '+' := by
    rintro rfl
    exact absurd h (by decide)
  unfold splitSign
  split
  · next heq => exact absurd (List.cons.inj heq).1 hminus
  · next heq => exact absurd (List.cons.inj heq).1 hplus
  · rfl

/-- What `takeWhile` and `dropWhile` make of a text whose first part passes the test. -/
theorem takeWhile_dropWhile_append {p : Char → Prop} [DecidablePred p] {cs ds : List Char}
    (hcs : ∀ c ∈ cs, p c) (hds : ∀ c, ds.head? = some c → ¬ p c) :
    (cs ++ ds).takeWhile (fun c => p c) = cs ∧ (cs ++ ds).dropWhile (fun c => p c) = ds := by
  induction cs with
  | nil =>
    cases ds with
    | nil => exact ⟨rfl, rfl⟩
    | cons d ds =>
      have hd := hds d rfl
      exact ⟨List.takeWhile_cons_of_neg (by simpa using hd),
        List.dropWhile_cons_of_neg (by simpa using hd)⟩
  | cons c cs ih =>
    have hc := hcs c List.mem_cons_self
    obtain ⟨htake, hdrop⟩ := ih fun d hd => hcs d (List.mem_cons_of_mem c hd)
    rw [List.cons_append, List.takeWhile_cons_of_pos (by simpa using hc),
      List.dropWhile_cons_of_pos (by simpa using hc), htake, hdrop]
    exact ⟨rfl, rfl⟩

theorem isSplit_split (h : (split text).digits ≠ []) : IsSplit text (split text) where
  append := by
    change text.takeWhile _ ++ ((splitSign _).1 ++ ((splitSign _).2.takeWhile _ ++
      (splitSign _).2.dropWhile _)) = text
    rw [List.takeWhile_append_dropWhile, splitSign_append, List.takeWhile_append_dropWhile]
  spaces c hc := by simpa using List.mem_takeWhile_imp hc
  sign := splitSign_sign _
  digits c hc := by simpa using List.mem_takeWhile_imp hc
  ne_nil := h
  rest c hc := by
    have hnot := List.head?_dropWhile_not (fun c => decide (IsDigit c))
      (splitSign (text.dropWhile fun c => IsSpace c)).2
    change ((splitSign _).2.dropWhile _).head? = some c at hc
    rw [hc] at hnot
    simpa using hnot

/-- **The parts of a text are determined by it.** -/
theorem IsSplit.split_eq (h : IsSplit text parts) : split text = parts := by
  obtain ⟨spaces, sign, digits, rest⟩ := parts
  obtain ⟨rfl, hspaces, hsign, hdigits, hne, hrest⟩ := h
  obtain ⟨d, ds, rfl⟩ := List.exists_cons_of_ne_nil hne
  have hd := hdigits d List.mem_cons_self
  have hsplitSign : splitSign (sign ++ ((d :: ds) ++ rest)) = (sign, (d :: ds) ++ rest) := by
    rcases hsign with rfl | rfl | rfl
    · exact splitSign_of_isDigit hd
    · rfl
    · rfl
  have hbody : ∀ c, (sign ++ ((d :: ds) ++ rest)).head? = some c → ¬ IsSpace c := by
    intro c hc
    rcases hsign with rfl | rfl | rfl <;> obtain rfl := Option.some.inj hc
    · exact not_isSpace_of_isDigit hd
    · decide
    · decide
  obtain ⟨hspace, hdrop⟩ := takeWhile_dropWhile_append hspaces hbody
  obtain ⟨hdigit, hlast⟩ := takeWhile_dropWhile_append hdigits hrest
  simp only [split, hspace, hdrop, hsplitSign, hdigit, hlast]

theorem IsSplit.drop (h : IsSplit text parts) :
    text.drop (parts.spaces.length + parts.sign.length + parts.digits.length) = parts.rest := by
  rw [← h.append, ← List.append_assoc, ← List.append_assoc]
  exact List.drop_left' (by simp only [List.length_append])

/-- `*end` does not leave the text. -/
theorem consumed_le (text : List Char) : (strtoull text).consumed ≤ text.length := by
  by_cases hne : (split text).digits = []
  · rw [strtoull, if_pos hne]
    exact Nat.zero_le _
  · have hlength := congrArg List.length (isSplit_split hne).append
    simp only [List.length_append] at hlength
    simp only [strtoull, if_neg hne]
    split <;> change (split text).spaces.length + _ + _ ≤ _ <;> omega

/-- **What `strtoull` accepts.** -/
theorem converts_iff (text rest : List Char) (value : BitVec 64) :
    IsNumeral text rest value ↔
      (strtoull text).outOfRange = false ∧ (strtoull text).consumed ≠ 0 ∧
        text.drop (strtoull text).consumed = rest ∧ (strtoull text).value = value := by
  constructor
  · rintro ⟨parts, hsplit, rfl, hlt, rfl⟩
    have hpos := List.length_pos_iff.mpr hsplit.ne_nil
    simp only [strtoull, hsplit.split_eq, if_neg hsplit.ne_nil, if_neg (Nat.not_le.mpr hlt),
      hsplit.drop, ne_eq, and_true, true_and]
    omega
  · rintro ⟨hrange, hconsumed, rfl, rfl⟩
    unfold strtoull at hrange hconsumed ⊢
    simp only at hrange hconsumed ⊢
    split at hrange
    · next hnil =>
      rw [if_pos hnil] at hconsumed
      exact absurd rfl hconsumed
    · next hne =>
      split at hrange
      · cases hrange
      · next hlt =>
        have hsplit := isSplit_split hne
        rw [if_neg hne, if_neg hlt]
        exact ⟨split text, hsplit, hsplit.drop.symm, Nat.lt_of_not_le hlt, rfl⟩

/-- The numeral of a 64-bit number stands for it. -/
theorem isNumeral_write (h : n < 2 ^ 64) : IsNumeral (write n) [] (BitVec.ofNat 64 n) := by
  refine ⟨⟨[], [], write n, []⟩, ⟨?_, ?_, Or.inl rfl, fun c hc => isDigit_of_mem_write hc, ?_, ?_⟩,
    rfl, ?_, ?_⟩
  · exact List.append_nil _
  · intro c hc
    cases hc
  · exact List.ne_nil_of_length_pos (length_write_pos n)
  · intro c hc
    cases hc
  · rwa [read_write]
  · rw [read_write]
    rfl

end Doost.Strtoull
