/-!
# CInt — 32-bit `int` arithmetic over `Int`

An `int` is an `Int` between `intMin` and `intMax`.  An operation whose exact result may leave that range is written
`wrap32 (exact result)`: two's-complement wrap-around modulo `2 ^ 32`.  Inside the range `wrap32` is the identity
(`wrap32_of_fits`), which is the only fact most proofs need.
-/
namespace CInt

def intMin : Int := -2147483648
def intMax : Int := 2147483647

def Fits (x : Int) : Prop := intMin ≤ x ∧ x ≤ intMax

instance (x : Int) : Decidable (Fits x) := by unfold Fits; exact inferInstance

/-- The `int` left by an operation whose exact result is `x`. -/
def wrap32 (x : Int) : Int := (x + 2147483648) % 4294967296 - 2147483648

theorem fits_iff (x : Int) : Fits x ↔ -2147483648 ≤ x ∧ x ≤ 2147483647 := Iff.rfl

theorem fits_wrap32 (x : Int) : Fits (wrap32 x) := by
  rw [fits_iff]; unfold wrap32; omega

theorem wrap32_of_fits {x : Int} (h : Fits x) : wrap32 x = x := by
  rw [fits_iff] at h; unfold wrap32; omega

/-- Wrapping an operand first changes nothing: only the residue modulo `2 ^ 32` counts. -/
theorem wrap32_add_left (x y : Int) : wrap32 (wrap32 x + y) = wrap32 (x + y) := by
  unfold wrap32; omega

/-- An index in range is a `Fin`. -/
theorem exists_fin {n : Nat} {x : Int} (h0 : 0 ≤ x) (hn : x < n) : ∃ i : Fin n, x = (i.val : Int) :=
  ⟨⟨x.toNat, by omega⟩, (Int.toNat_of_nonneg h0).symm⟩

end CInt
