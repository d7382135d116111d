import Mathlib.Data.List.Induction
import Textproto.Data.Entries

namespace Textproto.Entries

variable {κ α β : Type} [DecidableEq κ] {key : κ} {value : α} {entries : List (κ × α)}

theorem mem_of_get? (h : get? key entries = some value) : (key, value) ∈ entries := by
  induction entries with
  | nil => cases h
  | cons entry rest ih =>
      obtain ⟨k, a⟩ := entry
      by_cases hk : k = key
      · subst hk
        simp only [get?, if_true, Option.some.injEq] at h
        rw [h]
        exact List.mem_cons_self
      · simp only [get?, if_neg hk] at h
        exact List.mem_cons_of_mem _ (ih h)

theorem get?_eq_none_iff : get? key entries = none ↔ key ∉ entries.map Prod.fst := by
  induction entries with
  | nil => simp
  | cons entry rest ih =>
      obtain ⟨k, a⟩ := entry
      by_cases hk : k = key
      · simp [get?, hk]
      · simp [get?, hk, ih, Ne.symm hk]

theorem get?_isSome_iff : (get? key entries).isSome = true ↔ key ∈ entries.map Prod.fst := by
  rw [← Option.ne_none_iff_isSome, ne_eq, get?_eq_none_iff, Decidable.not_not]

/-- Under distinct keys every entry is found. -/
theorem get?_of_mem (hdistinct : (entries.map Prod.fst).Nodup) (h : (key, value) ∈ entries) :
    get? key entries = some value := by
  induction entries with
  | nil => cases h
  | cons entry rest ih =>
      obtain ⟨k, a⟩ := entry
      rw [List.map_cons, List.nodup_cons] at hdistinct
      rcases List.mem_cons.mp h with heq | hrest
      · cases heq
        simp [get?]
      · have hne : k ≠ key := by
          rintro rfl
          exact hdistinct.1 (List.mem_map.mpr ⟨_, hrest, rfl⟩)
        rw [get?, if_neg hne]
        exact ih hdistinct.2 hrest

theorem get?_eq_some_iff (hdistinct : (entries.map Prod.fst).Nodup) :
    get? key entries = some value ↔ (key, value) ∈ entries :=
  ⟨mem_of_get?, get?_of_mem hdistinct⟩

theorem get?_map (f : α → β) :
    get? key (entries.map (Prod.map id f)) = (get? key entries).map f := by
  induction entries with
  | nil => rfl
  | cons entry rest ih =>
      obtain ⟨k, a⟩ := entry
      by_cases hk : k = key
      · simp [get?, hk]
      · simp [get?, hk, ih]

theorem map_put (f : α → β) :
    (put key value entries).map (Prod.map id f) =
      put key (f value) (entries.map (Prod.map id f)) := by
  induction entries with
  | nil => rfl
  | cons entry rest ih =>
      obtain ⟨k, a⟩ := entry
      by_cases hk : k = key
      · simp [put, hk]
      · simp [put, hk, ih]

theorem nodup_put (hdistinct : (entries.map Prod.fst).Nodup) :
    ((put key value entries).map Prod.fst).Nodup := by
  rw [map_fst_put]
  split
  next => exact hdistinct
  next hmem =>
    refine List.nodup_append.mpr ⟨hdistinct, by simp, ?_⟩
    rintro k hk other hother rfl
    rw [List.mem_singleton] at hother
    exact hmem (hother ▸ hk)

theorem mem_map_fst_put {other : κ} :
    other ∈ (put key value entries).map Prod.fst ↔
      other = key ∨ other ∈ entries.map Prod.fst := by
  rw [map_fst_put]
  split
  next hmem =>
    refine ⟨.inr, ?_⟩
    rintro (rfl | h)
    · exact hmem
    · exact h
  next => rw [List.mem_append, List.mem_singleton, or_comm]

theorem of_mem_put {other : κ} {found : α} (h : (other, found) ∈ put key value entries) :
    (other = key ∧ found = value) ∨ (other, found) ∈ entries := by
  induction entries with
  | nil => exact .inl (Prod.mk.inj (List.mem_singleton.mp h))
  | cons entry rest ih =>
      obtain ⟨k, a⟩ := entry
      unfold put at h
      split at h
      next =>
        rcases List.mem_cons.mp h with heq | hrest
        · exact .inl (Prod.mk.inj heq)
        · exact .inr (List.mem_cons_of_mem _ hrest)
      next =>
        rcases List.mem_cons.mp h with heq | hrest
        · exact .inr (heq ▸ List.mem_cons_self)
        · exact (ih hrest).imp_right (List.mem_cons_of_mem _)

/-- Under distinct keys the entries after writing are the new one and those under other keys. -/
theorem mem_put {other : κ} {found : α} (hdistinct : (entries.map Prod.fst).Nodup) :
    (other, found) ∈ put key value entries ↔
      (other = key ∧ found = value) ∨ (other ≠ key ∧ (other, found) ∈ entries) := by
  rw [← get?_eq_some_iff (nodup_put hdistinct)]
  by_cases hk : other = key
  · subst hk
    simp [eq_comm]
  · rw [get?_put_of_ne hk, get?_eq_some_iff hdistinct]
    simp [hk]

/-! Entries written one after another. -/

theorem get?_foldl_put {items : List β} {name : β → κ} {content : β → α} {found : α}
    (h : get? key (items.foldl (fun all item => put (name item) (content item) all) entries) =
      some found) :
    (∃ item ∈ items, name item = key ∧ content item = found) ∨ get? key entries = some found := by
  induction items generalizing entries with
  | nil => exact .inr h
  | cons item items ih =>
      rcases ih h with ⟨other, hmem, hother⟩ | hget
      · exact .inl ⟨other, List.mem_cons_of_mem _ hmem, hother⟩
      · by_cases hk : key = name item
        · subst hk
          rw [get?_put_self, Option.some.injEq] at hget
          exact .inl ⟨item, List.mem_cons_self, rfl, hget⟩
        · rw [get?_put_of_ne hk] at hget
          exact .inr hget

theorem mem_map_fst_foldl_put {items : List β} {name : β → κ} {content : β → α} :
    key ∈ (items.foldl (fun all item => put (name item) (content item) all) entries).map Prod.fst ↔
      key ∈ items.map name ∨ key ∈ entries.map Prod.fst := by
  induction items generalizing entries with
  | nil => simp
  | cons item items ih =>
      rw [List.foldl_cons, ih, mem_map_fst_put, List.map_cons, List.mem_cons]
      grind

theorem put_of_not_mem (h : key ∉ entries.map Prod.fst) :
    put key value entries = entries ++ [(key, value)] := by
  induction entries with
  | nil => rfl
  | cons entry rest ih =>
      obtain ⟨k, a⟩ := entry
      rw [List.map_cons, List.mem_cons, not_or] at h
      rw [put, if_neg (Ne.symm h.1), ih h.2]
      rfl

/-- Items under new keys are written one behind another. -/
theorem foldl_put_of_not_mem {items : List (κ × α)} (hdistinct : (items.map Prod.fst).Nodup)
    (hnew : ∀ item ∈ items, item.1 ∉ entries.map Prod.fst) :
    items.foldl (fun all (key, value) => put key value all) entries = entries ++ items := by
  induction items generalizing entries with
  | nil => simp
  | cons item items ih =>
      obtain ⟨k, a⟩ := item
      rw [List.map_cons, List.nodup_cons] at hdistinct
      simp only [List.foldl_cons]
      rw [put_of_not_mem (hnew (k, a) List.mem_cons_self), ih hdistinct.2]
      · simp
      · intro other hother
        rw [List.map_append, List.mem_append, not_or, List.map_singleton, List.mem_singleton]
        refine ⟨hnew other (List.mem_cons_of_mem _ hother), fun heq => hdistinct.1 ?_⟩
        exact List.mem_map.mpr ⟨other, hother, heq⟩

end Textproto.Entries
