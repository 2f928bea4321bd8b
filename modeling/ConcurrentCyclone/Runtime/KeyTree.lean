import ConcurrentCyclone.Runtime.LockSums

/-!
# Keys above a key

Which keys are above a key in the tree of a thread, and how the operations on one key change that.
`_xregion_cap` gives up a key with everything below it, or changes counts; in both cases the keys
that stay have the same keys above them (`Replaced.above_eq`), as long as the thread has one key for
each region.
-/

set_option autoImplicit false

namespace ConcurrentCyclone.Runtime

open Transition

/-- The key of region `p` is above the key of region `z`. -/
def Keys.above (p z : Rid) : Keys → Bool
  | .nil => false
  | .key h _ _ sub next =>
    (h == p && decide (z ∈ sub.regions)) || sub.above p z || next.above p z

theorem Keys.mem_of_above {p z : Rid} {ks : Keys} (h : ks.above p z = true) :
    p ∈ ks.regions ∧ z ∈ ks.regions := by
  induction ks with
  | nil => cases h
  | key h' a l sub next ihsub ihnext =>
    simp only [above, Bool.or_eq_true, Bool.and_eq_true, beq_iff_eq, decide_eq_true_eq] at h
    simp only [regions, List.mem_cons, List.mem_append]
    rcases h with (⟨rfl, hz⟩ | hsub) | hnext
    · exact ⟨.inl rfl, .inr (.inl hz)⟩
    · exact ⟨.inr (.inl (ihsub hsub).1), .inr (.inl (ihsub hsub).2)⟩
    · exact ⟨.inr (.inr (ihnext hnext).1), .inr (.inr (ihnext hnext).2)⟩

theorem Keys.above_eq_false {p z : Rid} {ks : Keys} (h : p ∉ ks.regions ∨ z ∉ ks.regions) :
    ks.above p z = false := by
  rw [Bool.eq_false_iff]
  intro habove
  obtain ⟨hp, hz⟩ := mem_of_above habove
  exact h.elim (fun hnot => hnot hp) fun hnot => hnot hz

@[simp] theorem Keys.above_mapCaps (p z : Rid) (f : LocalCaps → LocalCaps) (ks : Keys) :
    (ks.mapCaps f).above p z = ks.above p z := by
  induction ks with
  | nil => rfl
  | key h a l sub next ihsub ihnext => simp [mapCaps, above, ihsub, ihnext]

/-- A property of the keys that follows from another one for the regions that are there. -/
theorem Keys.All.imp_mem {p q : Rid → LocalCaps → Prop} {ks : Keys}
    (himp : ∀ z ∈ ks.regions, ∀ l, p z l → q z l) (hall : ks.All p) : ks.All q := by
  induction ks with
  | nil => trivial
  | key h a l sub next ihsub ihnext =>
    obtain ⟨hself, hsub, hnext⟩ := hall
    refine ⟨himp h (by simp [regions]) l hself, ihsub ?_ hsub, ihnext ?_ hnext⟩
    · exact fun z hz => himp z (by simp [regions, hz])
    · exact fun z hz => himp z (by simp [regions, hz])

section Replaced

variable {h p z : Rid} {k : KeyData} {o : Option KeyData} {ks ks' : Keys}

/-- The keys below the replaced key. -/
theorem Replaced.above_iff (hrep : Replaced h k o ks ks') (hnodup : ks.regions.Nodup) :
    ks.above h z = true ↔ z ∈ k.2.regions := by
  induction hrep with
  | removed | changed =>
    obtain ⟨_, _, hhsub, hhnext, _⟩ := Keys.nodup_key hnodup
    -- no other key is for the region
    simp [Keys.above, Keys.above_eq_false (.inl hhsub), Keys.above_eq_false (.inl hhnext)]
  | sub hne hrep ih =>
    obtain ⟨hsub, _, _, _, hdisj⟩ := Keys.nodup_key hnodup
    have hnext := hdisj h (hrep.mem_old (.head _))
    simp [Keys.above, hne, Keys.above_eq_false (.inl hnext), ih hsub]
  | next hne hrep ih =>
    obtain ⟨_, hnext, _, _, hdisj⟩ := Keys.nodup_key hnodup
    have hsub := fun hmem => hdisj h hmem (hrep.mem_old (.head _))
    simp [Keys.above, hne, Keys.above_eq_false (.inl hsub), ih hnext]

section

variable (hrep : Replaced h k o ks ks')

include hrep

/-- A key that stays has the same keys above it. -/
theorem Replaced.above_eq (ho : SameBelow k o)
    (hnodup : ks.regions.Nodup) (hz : z ∈ ks'.regions) : ks'.above p z = ks.above p z := by
  induction hrep with
  | removed =>
    obtain ⟨_, _, _, _, hdisj⟩ := Keys.nodup_key hnodup
    have hsub : z ∉ k.2.regions := fun hmem => hdisj z hmem hz
    simp [Keys.above, hsub, Keys.above_eq_false (.inr hsub)]
  | changed =>
    obtain ⟨f, hf⟩ := ho _ rfl
    simp [Keys.above, hf]
  | @sub o h' a l sub sub' next hne hrep ih =>
    obtain ⟨hsub, _, hhsub, _, hdisj⟩ := Keys.nodup_key hnodup
    by_cases hzsub : z ∈ sub'.regions
    · simp [Keys.above, ih ho hsub hzsub, hzsub, hrep.mem_new ho hzsub]
    · -- the key stays outside of the sub-keys, where it was before
      have hold : z ∉ sub.regions := by
        simp only [Keys.regions, List.mem_cons, List.mem_append, hzsub, false_or] at hz
        rcases hz with rfl | hz
        · exact hhsub
        · exact fun hmem => hdisj z hmem hz
      simp [Keys.above, hzsub, hold, Keys.above_eq_false (.inr hzsub),
        Keys.above_eq_false (.inr hold)]
  | @next o h' a l sub next next' hne hrep ih =>
    obtain ⟨_, hnext, _, hhnext, hdisj⟩ := Keys.nodup_key hnodup
    by_cases hznext : z ∈ next'.regions
    · simp [Keys.above, ih ho hnext hznext]
    · have hold : z ∉ next.regions := by
        simp only [Keys.regions, List.mem_cons, List.mem_append, hznext, or_false] at hz
        rcases hz with rfl | hz
        · exact hhnext
        · exact hdisj z hz
      simp [Keys.above, Keys.above_eq_false (.inr hznext), Keys.above_eq_false (.inr hold)]

/-- What the keys have is changed outside of the replaced key to another property, which the new key
and the keys below it have. -/
theorem Replaced.all_change {q r : Rid → LocalCaps → Prop}
    (hnodup : ks.regions.Nodup) (hall : ks.All q)
    (hother : ∀ y ∈ ks.regions, y ∉ h :: k.2.regions → ∀ l, q y l → r y l)
    (hnew : ∀ k', o = some k' → r h k'.1 ∧ k'.2.All r) : ks'.All r := by
  induction hrep with
  | removed =>
    obtain ⟨_, _, _, hhnext, hdisj⟩ := Keys.nodup_key hnodup
    refine hall.2.2.imp_mem fun y hy => (Keys.forall_regions.1 hother).2.2 y hy ?_
    rintro (_ | ⟨_, hmem⟩)
    · exact hhnext hy
    · exact hdisj y hmem hy
  | changed =>
    obtain ⟨_, _, _, hhnext, hdisj⟩ := Keys.nodup_key hnodup
    obtain ⟨hself, hsub⟩ := hnew _ rfl
    refine ⟨hself, hsub, hall.2.2.imp_mem fun y hy => (Keys.forall_regions.1 hother).2.2 y hy ?_⟩
    rintro (_ | ⟨_, hmem⟩)
    · exact hhnext hy
    · exact hdisj y hmem hy
  | @sub o h' a l sub sub' next hne hrep ih =>
    obtain ⟨hsub, _, hhsub, _, hdisj⟩ := Keys.nodup_key hnodup
    obtain ⟨hself, hbelow, hbeside⟩ := Keys.forall_regions.1 hother
    refine ⟨hself (fun hmem => hhsub (hrep.mem_old hmem)) l hall.1,
      ih hsub hall.2.1 hbelow hnew, hall.2.2.imp_mem fun y hy => hbeside y hy fun hmem => ?_⟩
    exact hdisj y (hrep.mem_old hmem) hy
  | @next o h' a l sub next next' hne hrep ih =>
    obtain ⟨_, hnext, _, hhnext, hdisj⟩ := Keys.nodup_key hnodup
    obtain ⟨hself, hbelow, hbeside⟩ := Keys.forall_regions.1 hother
    refine ⟨hself (fun hmem => hhnext (hrep.mem_old hmem)) l hall.1,
      hall.2.1.imp_mem fun y hy => hbelow y hy fun hmem => ?_, ih hnext hall.2.2 hbeside hnew⟩
    exact hdisj y hy (hrep.mem_old hmem)

end

end Replaced

end ConcurrentCyclone.Runtime
