import Mathlib.Data.List.Basic

/-!
# Widths of concatenated documents

`concat`, `long_cats` and `cats` of `lib/pp.cyc`, on the two minimum widths of a document. For more
than thirty documents `cats` uses `long_cats`, whose loop starts with one width for both and then
takes each one for the other. Its documents have the width of the first one up to a line break,
whatever follows it, unless a sum wraps around (`cats_widths`).
-/

set_option autoImplicit false

namespace ConcurrentCyclone.Lib.Pp

/-- The widths of a document without and with a line break. -/
structure Doc where
  mwo : Int32
  mw : Int32
  deriving DecidableEq, Repr

def infinity : Int32 := 9999999

def min (x y : Int32) : Int32 := if x ≤ y then x else y

def textDoc (slen : Int32) : Doc :=
  ⟨slen, infinity⟩

def nilDoc : Doc :=
  textDoc 0

def concat (d1 d2 : Doc) : Doc :=
  ⟨min d1.mw (d1.mwo + d2.mwo), min d1.mw (d1.mwo + d2.mw)⟩

/-- The loop of `long_cats`. -/
def longCatsLoop : List Doc → Int32 → Int32 → Doc
  | [], mw, mwo => ⟨mw, mwo⟩
  | d :: ds, mw, mwo => longCatsLoop ds (min mw (mwo + d.mwo)) (min mw (mwo + d.mw))

def longCats (d : Doc) (doclist : List Doc) : Doc :=
  longCatsLoop doclist d.mw d.mw

def cats : List Doc → Doc
  | [] => nilDoc
  | [d] => d
  | d :: doclist =>
    if doclist.length + 1 > 30 then longCats d doclist else concat d (cats doclist)

/-- The concatenation nested to the right. -/
def rightNested : List Doc → Doc
  | [] => nilDoc
  | [d] => d
  | d :: ds => concat d (rightNested ds)

theorem cats_eq_rightNested {ds : List Doc} (h : ds.length ≤ 30) : cats ds = rightNested ds := by
  fun_induction cats ds with
  | case1 | case2 => rfl
  | case3 d ds _ hlong => exact absurd h (Nat.not_le.2 hlong)
  | case4 d ds hds hlong ih =>
    rw [rightNested.eq_3 d ds hds, ih (Nat.le_of_succ_le h)]

/-- The width is not negative, and can be added to `w`. -/
def Adds (w v : Int32) : Prop := 0 ≤ v.toInt ∧ w.toInt + v.toInt ≤ Int32.maxValue.toInt

theorem min_add {w v : Int32} (h : Adds w v) : min w (w + v) = w := by
  obtain ⟨hv, hsum⟩ := h
  have hw := w.le_toInt
  have hmax : Int32.maxValue.toInt = 2147483647 := by decide
  refine if_pos (Int32.le_iff_toInt_le.2 ?_)
  rw [Int32.toInt_add, Int.bmod_eq_of_le (by omega) (by omega)]
  omega

/-- With equal widths to start with, the loop leaves them as they are. -/
theorem longCatsLoop_eq {ds : List Doc} {w : Int32} (h : ∀ d ∈ ds, Adds w d.mwo ∧ Adds w d.mw) :
    longCatsLoop ds w w = ⟨w, w⟩ := by
  induction ds with
  | nil => rfl
  | cons d ds ih =>
    obtain ⟨hd, hds⟩ := List.forall_mem_cons.1 h
    rw [longCatsLoop, min_add hd.1, min_add hd.2, ih hds]

/-- Up to thirty documents the widths are those of the nested concatenation. For more, with widths
that are not negative and can be added to that of the first one up to a line break, they are if
these are both this width. -/
theorem cats_widths (ds : List Doc) : (ds.length ≤ 30 → cats ds = rightNested ds) ∧
    ∀ d : Doc, 30 < (d :: ds).length → (∀ e ∈ ds, Adds d.mw e.mwo ∧ Adds d.mw e.mw) →
      (cats (d :: ds) = rightNested (d :: ds) ↔ rightNested (d :: ds) = ⟨d.mw, d.mw⟩) := by
  refine ⟨cats_eq_rightNested, fun d hlong hds => ?_⟩
  have hcats : cats (d :: ds) = ⟨d.mw, d.mw⟩ := by
    cases ds with
    | nil => simp at hlong
    | cons e ds =>
      rw [cats, if_pos (by exact hlong), longCats, longCatsLoop_eq hds]
      exact List.cons_ne_nil e ds
  rw [hcats]
  exact eq_comm

theorem cats_texts : cats (List.replicate 31 (textDoc 1)) = ⟨infinity, infinity⟩ ∧
    rightNested (List.replicate 31 (textDoc 1)) = ⟨31, infinity⟩ := by
  decide +kernel

end ConcurrentCyclone.Lib.Pp
