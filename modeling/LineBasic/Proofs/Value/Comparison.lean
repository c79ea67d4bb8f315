import LineBasic.Proofs.Number.Ordered
import LineBasic.Proofs.Text.ByteOrder
import LineBasic.Value

/-!
# Comparing values

There are two ways to compare values: `Value.compare` takes any two, and the comparing operators
take two of one type. Where both apply they agree, unless what is not a number is compared
(`Value.compare_consistent`). The order of `Value.compare` is reversed when its arguments change
places, also where a number meets a text.
-/

namespace LineBasic

/-! ## Numbers -/

namespace Number

variable {x y : Float}

/-- Numbers that cannot be compared count as equal. -/
theorem compare_eq_getD (x y : Float) :
    compare x y = (x.toModel.unpack.compare y.toModel.unpack).getD .eq := by
  unfold compare
  simp only [lt_iff_compare, compare_swap x.toModel.unpack]
  cases x.toModel.unpack.compare y.toModel.unpack with
  | none => rfl
  | some o => cases o <;> rfl

theorem swap_compare (x y : Float) : (compare x y).swap = compare y x := by
  rw [compare_eq_getD, compare_eq_getD, compare_swap x.toModel.unpack]
  cases x.toModel.unpack.compare y.toModel.unpack <;> rfl

theorem compare_unpack_eq_some (hx : x.isNaN = false) (hy : y.isNaN = false) :
    x.toModel.unpack.compare y.toModel.unpack = some (compare x y) := by
  have hne : x.toModel.unpack.compare y.toModel.unpack ≠ none := by
    rw [Ne, compare_unpack_eq_none_iff, hx, hy]
    simp
  rw [compare_eq_getD]
  cases h : x.toModel.unpack.compare y.toModel.unpack with
  | none => exact absurd h hne
  | some o => rfl

end Number

/-! ## Operators -/

namespace Operator

/-- Whether a comparing operator holds of operands in this order. -/
def accepts : Operator → Ordering → Bool
  | .equal, o => o == .eq
  | .notEqual, o => o != .eq
  | .less, o => o == .lt
  | .lessEqual, o => o != .gt
  | .greater, o => o == .gt
  | .greaterEqual, o => o != .lt
  | _, _ => false

section holds

variable {α : Type} [BEq α] [LT α] [LE α] [DecidableLT α] [DecidableLE α]

/-- Whether a comparing operator holds of two operands of a type. -/
def holds (x y : α) : Operator → Bool
  | .equal => x == y
  | .notEqual => x != y
  | .less => x < y
  | .lessEqual => x ≤ y
  | .greater => x > y
  | .greaterEqual => x ≥ y
  | _ => false

/-- The relations of a type tell that two operands are in an order. -/
structure InOrder (x y : α) (o : Ordering) : Prop where
  lt_iff : x < y ↔ o = .lt
  gt_iff : y < x ↔ o = .gt
  beq_iff : (x == y) = true ↔ o = .eq
  le_iff : x ≤ y ↔ o ≠ .gt
  ge_iff : y ≤ x ↔ o ≠ .lt

theorem InOrder.holds_eq {x y : α} {o : Ordering} (h : InOrder x y o) (op : Operator) :
    op.holds x y = op.accepts o := by
  have hbeq : (x == y) = (o == .eq) := by rw [Bool.eq_iff_iff, h.beq_iff, beq_iff_eq]
  rw [Bool.eq_iff_iff]
  cases op with
  | equal => rw [holds, hbeq, accepts]
  | notEqual => rw [holds, bne, hbeq, accepts, bne]
  | less => simp [holds, accepts, h.lt_iff]
  | lessEqual => simp [holds, accepts, h.le_iff]
  | greater => simp [holds, accepts, h.gt_iff]
  | greaterEqual => simp [holds, accepts, h.ge_iff]
  | power | multiply | divide | add | subtract => rfl

end holds

theorem apply_eq_test {op : Operator} (h : op.isComparison = true) :
    op.apply = Value.test (op.holds · ·) (op.holds · ·) := by
  cases op with
  | equal | notEqual | less | lessEqual | greater | greaterEqual => rfl
  | power | multiply | divide | add | subtract => cases h

end Operator

open Operator (InOrder)

theorem Number.inOrder_compare {x y : Float} (hx : x.isNaN = false) (hy : y.isNaN = false) :
    InOrder x y (compare x y) := by
  have hxy := compare_unpack_eq_some hx hy
  have hyx := compare_unpack_eq_some hy hx
  rw [← swap_compare] at hyx
  constructor
  · rw [lt_iff_compare, hxy, Option.some_inj]
  · rw [lt_iff_compare, hyx, Option.some_inj, Ordering.swap_eq_lt]
  · rw [beq_iff_compare, hxy, Option.some_inj]
  · rw [le_iff_compare, hxy, Option.any_some, Ordering.isLE_iff_ne_gt]
  · rw [le_iff_compare, hyx, Option.any_some, Ordering.isLE_swap, Ordering.isGE_iff_ne_lt]

theorem Text.inOrder_compare (s t : String) : InOrder s t (Ord.compare s t) := by
  have hlt : ∀ s t : String, Ord.compare s t = .lt ↔ s < t :=
    fun s t => Std.LawfulLTCmp.eq_lt_iff_lt
  have hgt : t < s ↔ Ord.compare s t = .gt := by rw [Std.OrientedCmp.gt_iff_lt, hlt]
  constructor
  · exact (hlt s t).symm
  · exact hgt
  · rw [beq_iff_eq, Std.LawfulEqOrd.compare_eq_iff_eq]
  · rw [← String.not_lt, hgt]
  · rw [← String.not_lt, ← hlt]

namespace Value

/-- Whether a value has the type of numbers without being one. -/
def isNaN : Value → Bool
  | .number x => x.isNaN
  | .text _ => false

/-- When the values change places their order is reversed. -/
theorem compare_swap (a b : Value) : b.compare a = (a.compare b).swap := by
  have hmixed : ∀ (x : Float) (t : String),
      compare (.text t) (.number x) = (compare (.number x) (.text t)).swap := by
    intro x t
    simp only [compare, toNumber]
    cases Number.ofText? (Text.trim t.toList) with
    | none => exact Std.OrientedOrd.eq_swap
    | some y => exact (Number.swap_compare x y).symm
  cases a with
  | number x =>
    cases b with
    | number y => exact (Number.swap_compare x y).symm
    | text t => exact hmixed x t
  | text s =>
    cases b with
    | number y => rw [hmixed, Ordering.swap_swap]
    | text t => exact Std.OrientedOrd.eq_swap

/-- A comparing operator tells the order of two values of one type. -/
theorem apply_of_sameType {op : Operator} {a b : Value} (hop : op.isComparison = true)
    (htype : a.isNumber = b.isNumber) (ha : a.isNaN = false) (hb : b.isNaN = false) :
    op.apply a b = .ok (ofBool (op.accepts (a.compare b))) := by
  rw [Operator.apply_eq_test hop]
  cases a with
  | number x =>
    cases b with
    | number y =>
      exact congrArg (Except.ok <| ofBool ·) ((Number.inOrder_compare ha hb).holds_eq op)
    | text t => cases htype
  | text s =>
    cases b with
    | number y => cases htype
    | text t => exact congrArg (Except.ok <| ofBool ·) ((Text.inOrder_compare s t).holds_eq op)

theorem apply_of_otherType {op : Operator} {a b : Value} (hop : op.isComparison = true)
    (htype : a.isNumber ≠ b.isNumber) : op.apply a b = .error { code := .typeMismatch } := by
  rw [Operator.apply_eq_test hop]
  cases a with
  | number x =>
    cases b with
    | number y => exact absurd rfl htype
    | text t => rfl
  | text s =>
    cases b with
    | number y => rfl
    | text t => exact absurd rfl htype

/-- The two ways to compare values are consistent. Any two values compare the other way round when
they change places. On two values of one type that can be compared, an operator gives minus one
exactly if it holds of their order, and zero otherwise; on values of two types it fails. Texts are
ordered by their bytes, which is the order of the numbers of their characters. -/
theorem compare_consistent :
    (∀ a b : Value, b.compare a = (a.compare b).swap) ∧
    (∀ (op : Operator) (a b : Value), op.isComparison = true →
      (a.isNumber = b.isNumber → a.isNaN = false → b.isNaN = false →
        op.apply a b = .ok (.number (if op.accepts (a.compare b) then -1 else 0))) ∧
      (a.isNumber ≠ b.isNumber → op.apply a b = .error { code := .typeMismatch })) ∧
    ∀ s t : String, (Value.text s).compare (.text t) = Ord.compare (Text.bytes s) (Text.bytes t) ∧
      (Value.text s).compare (.text t) =
        Ord.compare (s.toList.map Char.toNat) (t.toList.map Char.toNat) := by
  refine ⟨compare_swap, fun op a b hop =>
    ⟨apply_of_sameType hop, apply_of_otherType hop⟩, fun s t => ?_⟩
  rw [Text.compare_bytes, and_self]
  exact Text.compare_eq_compare_map_toNat s t

/-- A number before a text that spells none, the two zeros, texts of three and of four bytes, and
two types. -/
theorem compare_consistent_mixed :
    (number 1).compare (.text "x") = .lt ∧ (Value.text "x").compare (.number 1) = .gt ∧
      Operator.equal.apply (.number 0) (.number (-0)) = .ok (.number (-1)) ∧
      Operator.greaterEqual.apply (.text "\uff61") (.text "😀") = .ok (.number 0) ∧
      Operator.less.apply (.number 1) (.text "2") = .error { code := .typeMismatch } := by
  obtain ⟨hswap, hoperator, htext⟩ := compare_consistent
  have hbefore : (number 1).compare (.text "x") = .lt := by decide +kernel
  have hzeros : (number 0).compare (.number (-0)) = .eq := by decide +kernel
  have htexts : (Value.text "\uff61").compare (.text "😀") = .lt := by
    rw [(htext _ _).1]
    decide +kernel
  refine ⟨hbefore, ?_, ?_, ?_, (hoperator .less _ _ rfl).2 (by decide)⟩
  · rw [hswap, hbefore]
    rfl
  · rw [(hoperator .equal (.number 0) (.number (-0)) rfl).1 rfl (by decide +kernel)
      (by decide +kernel), hzeros]
    rfl
  · rw [(hoperator .greaterEqual (.text "\uff61") (.text "😀") rfl).1 rfl rfl rfl, htexts]
    rfl

end Value

end LineBasic
