import Mathlib.Order.Basic

/-!
# Coinductive predicates under assumptions

For a monotone operator `F` on the predicates of a type, `Assuming F S` is the greatest predicate
that `F` supports when the elements of `S` are taken for granted. With no assumptions it is the
greatest fixed point. A search that keeps a stack of the elements it is working on, and takes an
element it meets again for granted, establishes `Assuming F S` for the stack `S`: when the work on
an element is done the element is discharged from the stack (`Assuming.discharge`).
-/

set_option autoImplicit false

namespace ConcurrentCyclone.FixedPoint

universe u

variable {α : Type u} {F : (α → Prop) → α → Prop} {S S' : α → Prop}

/-- Some predicate that contains `a` is supported by itself and the assumptions. -/
def Assuming (F : (α → Prop) → α → Prop) (S : α → Prop) (a : α) : Prop :=
  ∃ X : α → Prop, X a ∧ ∀ b, X b → F (fun c => X c ∨ S c) b

/-- The operator keeps inclusions. -/
def Monotonic (F : (α → Prop) → α → Prop) : Prop :=
  ∀ X Y : α → Prop, (∀ a, X a → Y a) → ∀ a, F X a → F Y a

variable {a : α}

theorem Assuming.weaken (h : Assuming F S a) (hS : ∀ b, S b → S' b)
    (hF : Monotonic F) : Assuming F S' a := by
  obtain ⟨X, ha, hX⟩ := h
  exact ⟨X, ha, fun b hb => hF _ _ (fun c hc => hc.imp id (hS c)) b (hX b hb)⟩

section

variable (hF : Monotonic F)

include hF

theorem Assuming.unfold (h : Assuming F S a) : F (fun c => Assuming F S c ∨ S c) a := by
  obtain ⟨X, ha, hX⟩ := h
  refine hF _ _ (fun c hc => ?_) a (hX a ha)
  exact hc.imp (fun hc => ⟨X, hc, hX⟩) id

theorem Assuming.fold (h : F (fun c => Assuming F S c ∨ S c) a) :
    Assuming F S a := by
  refine ⟨fun c => c = a ∨ Assuming F S c, .inl rfl, ?_⟩
  rintro b (rfl | hb)
  · exact hF _ _ (fun c hc => hc.imp .inr id) b h
  · exact hF _ _ (fun c hc => hc.imp .inr id) b (hb.unfold hF)

/-- Coinduction: it is enough to support a predicate by itself, by what is known to hold and by the
assumptions. -/
theorem Assuming.coinduct {X : α → Prop}
    (hX : ∀ b, X b → F (fun c => X c ∨ Assuming F S c ∨ S c) b) (ha : X a) : Assuming F S a := by
  refine ⟨fun c => X c ∨ Assuming F S c, .inl ha, fun b hb => ?_⟩
  rcases hb with hb | hb
  · exact hF _ _ (fun c hc => or_assoc.2 hc) b (hX b hb)
  · exact hF _ _ (fun c hc => hc.imp .inr id) b (hb.unfold hF)

/-- What holds when it is itself assumed holds without that assumption. -/
theorem Assuming.discharge (hS : ∀ b, S' b → b = a ∨ S b)
    (h : Assuming F S' a) : Assuming F S a := by
  refine Assuming.coinduct hF (X := fun b => Assuming F S' b) (fun b hb => ?_) h
  refine hF _ _ (fun c hc => ?_) b (hb.unfold hF)
  rcases hc with hc | hc
  · exact .inl hc
  · rcases hS c hc with rfl | hc
    · exact .inl h
    · exact .inr (.inr hc)

end

end ConcurrentCyclone.FixedPoint
