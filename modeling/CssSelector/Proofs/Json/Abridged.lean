import CssSelector.Json.Basic
import CssSelector.Proofs.NameMap

set_option autoImplicit false

namespace CssSelector.Json

/-- The members `ns` stand for `ms`, less some that `ds` has as well. -/
inductive Thinned (R : Json → Json → Json → Prop) :
    List (String × Json) → List (String × Json) → List (String × Json) → Prop
  | nil : Thinned R [] [] []
  | keep {key : String} {v d w : Json} {ms ds ns : List (String × Json)} : R v d w →
      Thinned R ms ds ns → Thinned R ((key, v) :: ms) ((key, d) :: ds) ((key, w) :: ns)
  | drop {key : String} {v : Json} {ms ds ns : List (String × Json)} : Thinned R ms ds ns →
      Thinned R ((key, v) :: ms) ((key, v) :: ds) ns

/-- The last value stands for the first, where the second is the default. -/
inductive Abridges : Json → Json → Json → Prop
  | same {v d : Json} : Abridges v d v
  | object {ms ds ns os : List (String × Json)} : Thinned Abridges ms ds ns → ns.Perm os →
      Abridges (.object ms) (.object ds) (.object os)

section
variable {R : Json → Json → Json → Prop} {ms ds ns : List (String × Json)} {key : String} {v d j : Json}

theorem Thinned.keys_sublist (h : Thinned R ms ds ns) : (ns.map (·.1)).Sublist (ms.map (·.1)) := by
  induction h with
  | nil => exact .slnil
  | keep _ _ ih => exact ih.cons_cons _
  | drop _ ih => exact ih.cons _

theorem Thinned.lookup (h : Thinned R ms ds ns) (hms : (ms.map (·.1)).Nodup)
    (hv : ms.lookup key = some v) (hd : ds.lookup key = some d) :
    (∃ w, ns.lookup key = some w ∧ R v d w) ∨ ns.lookup key = none ∧ v = d := by
  induction h with
  | nil => contradiction
  | @keep k _ _ w _ _ _ hw _ ih =>
    rw [NameMap.lookup_cons] at hv hd ⊢
    split at hv
    case isTrue hk =>
      rw [if_pos hk, Option.some.injEq] at hd
      rw [Option.some.injEq] at hv
      subst hv hd
      exact .inl ⟨w, if_pos hk, hw⟩
    case isFalse hk =>
      rw [if_neg hk] at hd ⊢
      exact ih (List.nodup_cons.1 hms).2 hv hd
  | @drop k _ _ _ ns hns ih =>
    obtain ⟨hout, hms⟩ := List.nodup_cons.1 hms
    rw [NameMap.lookup_cons] at hv hd
    split at hv
    case isTrue hk =>
      rw [if_pos hk] at hd
      have hkey : key ∉ ns.map (·.1) := by
        subst hk
        exact fun hmem => hout (hns.keys_sublist.subset hmem)
      exact .inr ⟨NameMap.lookup_eq_none hkey, Option.some.inj (hv.symm.trans hd)⟩
    case isFalse hk =>
      rw [if_neg hk] at hd
      exact ih hms hv hd

theorem Abridges.exists_object (h : Abridges (.object ms) (.object ds) j)
    (hms : (ms.map (·.1)).Nodup) :
    ∃ os, j = .object os ∧ (os.map (·.1)).Nodup ∧ os.map (·.1) ⊆ ms.map (·.1) ∧
      ∀ {key v d}, ms.lookup key = some v → ds.lookup key = some d →
        (∃ w, os.lookup key = some w ∧ Abridges v d w) ∨ os.lookup key = none ∧ v = d := by
  cases h with
  | same => exact ⟨ms, rfl, hms, List.Subset.refl _, fun hv _ => .inl ⟨_, hv, .same⟩⟩
  | @object _ _ ns os hns hperm =>
    have hnodup : (ns.map (·.1)).Nodup := hns.keys_sublist.nodup hms
    have hkeys : (ns.map (·.1)).Perm (os.map (·.1)) := hperm.map _
    refine ⟨os, rfl, hkeys.nodup_iff.1 hnodup, fun _ hk => hns.keys_sublist.subset (hkeys.symm.subset hk),
      fun hv hd => ?_⟩
    rw [← NameMap.lookup_perm hperm hnodup]
    exact hns.lookup hms hv hd

end

/-- However its JSON is abridged, a value is read from it. -/
def RoundTrips {α : Type} (read : Json → Option α) (write : α → Json) (default : α) : Prop :=
  ∀ x j, Abridges (write x) (write default) j → read j = some x

section
variable {α : Type} {read : Json → Option α} {write : α → Json} {default : α}

theorem roundTrips_of_plain (hread : ∀ x, read (write x) = some x)
    (hplain : ∀ x ms, write x ≠ .object ms) : RoundTrips read write default := by
  intro x j h
  generalize hv : write x = v at h
  generalize write default = d at h
  cases h with
  | same => rw [← hv, hread]
  | object => exact absurd hv (hplain x _)

theorem RoundTrips.read_write (h : RoundTrips read write default) (x : α) :
    read (write x) = some x :=
  h x _ .same

theorem RoundTrips.write_injective (h : RoundTrips read write default) : write.Injective := by
  intro x y hxy
  exact Option.some.inj ((h.read_write x).symm.trans ((congrArg read hxy).trans (h.read_write y)))

theorem Abridges.exists_members? {ms ds : List (String × Json)} {j : Json}
    (h : Abridges (.object ms) (.object ds) j) (keys : List String) (hms : ms.map (·.1) = keys)
    (hkeys : keys.Nodup) :
    ∃ os, members? keys j = some os ∧
      ∀ {α : Type} {read : Json → Option α} {write : α → Json} {default x : α} (key : String),
        RoundTrips read write default → ms.lookup key = some (write x) →
          ds.lookup key = some (write default) → field read key default os = some x := by
  subst hms
  obtain ⟨os, rfl, hnodup, hsub, hlookup⟩ := h.exists_object hkeys
  refine ⟨os, if_pos ⟨hnodup, fun _ hkey => hsub hkey⟩, fun key hfield hv hd => ?_⟩
  rcases hlookup hv hd with ⟨w, hw, habridges⟩ | ⟨hnone, hdefault⟩
  · rw [field, hw]
    exact hfield _ w habridges
  · -- the absent field gives the default, and no other value is written as the default is
    rw [field, hnone, hfield.write_injective hdefault]

end

end CssSelector.Json
