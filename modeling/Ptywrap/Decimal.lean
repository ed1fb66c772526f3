import Mathlib.Data.Nat.Digits.Lemmas
/-!
# Decimal — digit strings and their values

A numeral is any list of digits, most significant first; leading zeros and the empty list are numerals.  `value` reads
it, `ofNat` writes a number without leading zeros, and `value_ofNat` says that reading undoes writing.
-/
namespace Decimal

abbrev Numeral := List (Fin 10)

def push (v : Nat) (d : Fin 10) : Nat := v * 10 + d.val

def value (ds : Numeral) : Nat := ds.foldl push 0

/-- The decimal digits of `n`, most significant first; `0` is the single digit zero. -/
def ofNat (n : Nat) : Numeral := if n = 0 then [0] else ((Nat.digits 10 n).map (Fin.ofNat 10)).reverse

theorem foldl_push_ge : ∀ (ds : Numeral) (v : Nat), v ≤ ds.foldl push v
  | [], v => Nat.le_refl v
  | d :: ds, v => by
    have := foldl_push_ge ds (push v d)
    rw [List.foldl_cons]
    unfold push at *
    omega

theorem foldr_push_digits : ∀ (L : List Nat), (∀ d ∈ L, d < 10) →
    (L.map (Fin.ofNat 10)).foldr (fun d v => push v d) 0 = Nat.ofDigits 10 L
  | [], _ => rfl
  | d :: L, h => by
    have hd : d < 10 := h d List.mem_cons_self
    rw [List.map_cons, List.foldr_cons, foldr_push_digits L (fun x hx => h x (List.mem_cons_of_mem d hx)),
      Nat.ofDigits_cons, push, Fin.val_ofNat, Nat.mod_eq_of_lt hd]
    simp [Nat.add_comm, Nat.mul_comm]

theorem value_ofNat (n : Nat) : value (ofNat n) = n := by
  unfold ofNat value
  split
  · rename_i h
    rw [h]; rfl
  · rw [List.foldl_reverse, foldr_push_digits _ (fun d hd => Nat.digits_lt_base (by omega) hd), Nat.ofDigits_digits]

theorem ofNat_ne_nil (n : Nat) : ofNat n ≠ [] := by
  unfold ofNat
  split
  · exact List.cons_ne_nil _ _
  · rename_i h
    rw [Ne, List.reverse_eq_nil_iff, List.map_eq_nil_iff, Nat.digits_eq_nil_iff_eq_zero]
    exact h

theorem length_ofNat_le {n k : Nat} (hk : 0 < k) (h : n < 10 ^ k) : (ofNat n).length ≤ k := by
  unfold ofNat
  split
  · exact hk
  · rw [List.length_reverse, List.length_map]
    exact (Nat.digits_length_le_iff (by decide) n).2 h

end Decimal
