import LineBasic.Builtin
import LineBasic.Statement.ReadExpr

/-!
# Names in upper case

Putting a text in upper case twice is the same as once, so a name that is kept in upper case can be
looked up without regard to case. `Expr.ofName_of_builtin` and `Expr.ofName_of_not_builtin` say what
a name without arguments stands for.
-/

namespace LineBasic

theorem isAlpha_iff_toNat {c : Char} :
    c.isAlpha = true ↔ 65 ≤ c.toNat ∧ c.toNat ≤ 90 ∨ 97 ≤ c.toNat ∧ c.toNat ≤ 122 := by
  unfold Char.isAlpha Char.isUpper Char.isLower
  simp only [Bool.or_eq_true, Bool.and_eq_true, decide_eq_true_eq, ge_iff_le,
    UInt32.le_iff_toNat_le]
  exact Iff.rfl

theorem isDigit_iff_toNat {c : Char} : c.isDigit = true ↔ 48 ≤ c.toNat ∧ c.toNat ≤ 57 := by
  unfold Char.isDigit
  simp only [Bool.and_eq_true, decide_eq_true_eq, ge_iff_le, UInt32.le_iff_toNat_le]
  exact Iff.rfl

theorem isDigit_of_isAlpha {c : Char} (h : c.isAlpha = true) : c.isDigit = false := by
  rw [isAlpha_iff_toNat] at h
  rw [← Bool.not_eq_true, isDigit_iff_toNat]
  omega

/-- Upper case is 32 places before lower case. -/
theorem toNat_toUpper (c : Char) :
    c.toUpper.toNat = if 97 ≤ c.toNat ∧ c.toNat ≤ 122 then c.toNat - 32 else c.toNat := by
  have hlower : (c.val ≥ 'a'.val ∧ c.val ≤ 'z'.val) ↔ 97 ≤ c.toNat ∧ c.toNat ≤ 122 := by
    simp only [ge_iff_le, UInt32.le_iff_toNat_le]
    exact Iff.rfl
  unfold Char.toUpper
  split
  · rename_i h
    rw [if_pos (hlower.mp h)]
    have hrange := hlower.mp h
    have hval : (c.val + ('A'.val - 'a'.val)).toNat = (c.val.toNat + (2 ^ 32 - 32)) % 2 ^ 32 := by
      rw [UInt32.toNat_add]
      rfl
    change (c.val + ('A'.val - 'a'.val)).toNat = c.val.toNat - 32
    change 97 ≤ c.val.toNat ∧ c.val.toNat ≤ 122 at hrange
    omega
  · rename_i h
    rw [if_neg fun hrange => h (hlower.mpr hrange)]

theorem isAlpha_toUpper (c : Char) : c.toUpper.isAlpha = c.isAlpha := by
  rw [Bool.eq_iff_iff, isAlpha_iff_toNat, isAlpha_iff_toNat, toNat_toUpper]
  split <;> omega

theorem toUpper_of_not_lower {c : Char} (h : ¬ (97 ≤ c.toNat ∧ c.toNat ≤ 122)) : c.toUpper = c := by
  apply Char.toNat_inj.mp
  rw [toNat_toUpper, if_neg h]

theorem toUpper_of_not_isAlpha {c : Char} (h : c.isAlpha = false) : c.toUpper = c := by
  apply toUpper_of_not_lower
  rw [← Bool.not_eq_true, isAlpha_iff_toNat] at h
  exact fun hlower => h (.inr hlower)

theorem toUpper_toUpper_char (c : Char) : c.toUpper.toUpper = c.toUpper := by
  apply toUpper_of_not_lower
  rw [toNat_toUpper]
  split <;> omega

theorem toUpper_toUpper (s : String) : s.toUpper.toUpper = s.toUpper := by
  unfold String.toUpper
  rw [String.map_map]
  congr 1
  funext c
  exact toUpper_toUpper_char c

namespace Builtin

theorem mem_all (f : Builtin) : f ∈ all := by
  cases f <;> decide

theorem isName_iff {s : String} : isName s = true ↔ ∃ f : Builtin, f.name = s.toUpper := by
  simp [isName, ofName?, mem_all]

end Builtin

namespace Expr

theorem ofName_of_builtin {f : Builtin} {s : String} (h : f.name = s.toUpper) :
    ofName (.ofText s) = .call ⟨s.toUpper⟩ [] := by
  have hname : Builtin.isName s.toUpper = true :=
    Builtin.isName_iff.mpr ⟨f, by rw [toUpper_toUpper, h]⟩
  unfold ofName Ident.ofText
  rw [if_pos hname]

theorem ofName_of_not_builtin {s : String} (h : ∀ f : Builtin, f.name ≠ s.toUpper) :
    ofName (.ofText s) = .var ⟨s.toUpper⟩ := by
  have hname : ¬ Builtin.isName s.toUpper = true := by
    rw [Builtin.isName_iff, toUpper_toUpper]
    rintro ⟨f, hf⟩
    exact h f hf
  unfold ofName Ident.ofText
  rw [if_neg hname]

end Expr

end LineBasic
