import Mathlib.Algebra.Order.Ring.Nat
import Mathlib.Tactic.IntervalCases
import Mathlib.Tactic.Ring

/-!
# Decimal numerals

The numeral of a number (`write`) is what is left of it digit by digit, the last digit first, and
never empty. `read` is the value of a list of digits, with or without leading zeros. Reading a
numeral gives the number back (`read_write`), so that no two numbers have one numeral, and the
length of a numeral is that of the bound (`length_write_le`).
-/

namespace Doost.Decimal

/-- The character of a digit. -/
def digit (d : ℕ) : Char := Char.ofNat ('0'.toNat + d)

/-- The character is a decimal digit. -/
def IsDigit (c : Char) : Prop := '0'.toNat ≤ c.toNat ∧ c.toNat ≤ '9'.toNat

instance : DecidablePred IsDigit := fun _ => inferInstanceAs (Decidable (_ ∧ _))

/-- The value of a digit. -/
def value (c : Char) : ℕ := c.toNat - '0'.toNat

/-- The value of a list of digits, the most significant first. -/
def read (cs : List Char) : ℕ := cs.foldl (fun n c => 10 * n + value c) 0

/-- The numeral of a number. -/
def write (n : ℕ) : List Char :=
  if n / 10 = 0 then [digit (n % 10)] else write (n / 10) ++ [digit (n % 10)]
  termination_by n
  decreasing_by omega

variable {d n m : ℕ}

theorem toNat_digit (h : d < 10) : (digit d).toNat = '0'.toNat + d := by
  interval_cases d <;> rfl

theorem isDigit_digit (h : d < 10) : IsDigit (digit d) := by
  have h0 : '0'.toNat = 48 := rfl
  have h9 : '9'.toNat = 57 := rfl
  unfold IsDigit
  rw [toNat_digit h]
  omega

theorem value_digit (h : d < 10) : value (digit d) = d := by
  rw [value, toNat_digit h, Nat.add_sub_cancel_left]

@[simp] theorem read_nil : read [] = 0 := rfl

theorem read_concat (cs : List Char) (c : Char) : read (cs ++ [c]) = 10 * read cs + value c := by
  rw [read, List.foldl_append]
  rfl

theorem write_of_lt (h : n < 10) : write n = [digit n] := by
  rw [write, if_pos (by omega), Nat.mod_eq_of_lt h]

theorem write_of_le (h : 10 ≤ n) : write n = write (n / 10) ++ [digit (n % 10)] := by
  rw [write, if_neg (by omega)]

/-- **A numeral is read back.** -/
theorem read_write (n : ℕ) : read (write n) = n := by
  induction n using write.induct with
  | case1 n h =>
    rw [write_of_lt (by omega)]
    have hvalue := value_digit (d := n) (by omega)
    rw [← List.nil_append [digit n], read_concat, hvalue, read_nil]
    omega
  | case2 n h ih =>
    rw [write_of_le (by omega), read_concat, ih, value_digit (Nat.mod_lt _ (by decide))]
    omega

theorem write_injective : Function.Injective write := by
  intro n m h
  rw [← read_write n, h, read_write]

theorem isDigit_of_mem_write {c : Char} (h : c ∈ write n) : IsDigit c := by
  induction n using write.induct with
  | case1 n hn =>
    rw [write_of_lt (by omega), List.mem_singleton] at h
    exact h ▸ isDigit_digit (by omega)
  | case2 n hn ih =>
    rw [write_of_le (by omega), List.mem_append, List.mem_singleton] at h
    rcases h with h | rfl
    · exact ih h
    · exact isDigit_digit (Nat.mod_lt _ (by decide))

/-- The numeral of a positive number does not begin with a zero. -/
theorem write_eq_cons (h : 0 < n) : ∃ d cs, 0 < d ∧ d < 10 ∧ write n = digit d :: cs := by
  induction n using write.induct with
  | case1 n hn => exact ⟨n, [], h, by omega, write_of_lt (by omega)⟩
  | case2 n hn ih =>
    obtain ⟨d, cs, hd, hlt, heq⟩ := ih (by omega)
    exact ⟨d, cs ++ [digit (n % 10)], hd, hlt, by rw [write_of_le (by omega), heq]; rfl⟩

theorem length_write_pos (n : ℕ) : 0 < (write n).length := by
  rcases lt_or_ge n 10 with h | h
  · rw [write_of_lt h]
    exact Nat.one_pos
  · rw [write_of_le h, List.length_append]
    exact Nat.succ_pos _

/-- A number below a power of ten has no more digits than that. -/
theorem length_write_le {k : ℕ} (hk : 0 < k) (h : n < 10 ^ k) : (write n).length ≤ k := by
  induction k generalizing n with
  | zero => omega
  | succ k ih =>
    rcases lt_or_ge n 10 with hn | hn
    · rw [write_of_lt hn]
      exact hk
    · have hpos : 0 < k := by
        rcases Nat.eq_zero_or_pos k with rfl | hpos
        · omega
        · exact hpos
      have hlt : n / 10 < 10 ^ k := by
        rw [pow_succ] at h
        omega
      have hlength := ih hpos hlt
      rw [write_of_le hn, List.length_append, List.length_singleton]
      omega

end Doost.Decimal
