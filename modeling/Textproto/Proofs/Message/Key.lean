import Mathlib.Data.List.Induction
import Textproto.Message.Key
import Textproto.Proofs.Text.Utf8

namespace Textproto.Key

/-! The order of keys, and the entries that are sorted by it. -/

theorem not_before_self (k : Key) : k.before k = false := by
  cases k with
  | bool b => cases b <;> rfl
  | int n => simp [before]
  | uint n => simp [before]
  | string s => simp [before]

theorem before_trans {a b c : Key} (h : a.before b = true) (h' : b.before c = true) :
    a.before c = true := by
  cases a <;> cases b <;> cases c <;>
    simp only [before, rank, decide_eq_true_eq, Bool.and_eq_true, Bool.not_eq_true'] at h h' ⊢ <;>
    first
    | omega
    | exact List.lt_trans h h'
    | simp_all

theorem before_of_rank_ne {a b : Key} (hne : a.rank ≠ b.rank) :
    a.before b = decide (a.rank < b.rank) := by
  cases a <;> cases b <;> first | rfl | exact absurd rfl hne

/-- Of two different keys one comes first. -/
theorem before_of_ne {a b : Key} (hne : a ≠ b) (h : a.before b = false) : b.before a = true := by
  by_cases hrank : a.rank = b.rank
  · cases a with
    | bool a =>
        cases b with
        | bool b => cases a <;> cases b <;> simp_all [before]
        | int _ | uint _ | string _ => cases hrank
    | int a =>
        cases b with
        | int b =>
            have hne : a.toInt ≠ b.toInt := fun heq => hne (congrArg int (Int64.toInt_inj.mp heq))
            simp only [before, decide_eq_false_iff_not, decide_eq_true_eq] at h ⊢
            omega
        | bool _ | uint _ | string _ => cases hrank
    | uint a =>
        cases b with
        | uint b =>
            have hne : a.toNat ≠ b.toNat := fun heq => hne (congrArg uint (UInt64.toNat_inj.mp heq))
            simp only [before, decide_eq_false_iff_not, decide_eq_true_eq] at h ⊢
            omega
        | bool _ | int _ | string _ => cases hrank
    | string a =>
        cases b with
        | string b =>
            simp only [before, decide_eq_false_iff_not, decide_eq_true_eq] at h ⊢
            refine Decidable.byContradiction fun hlt => hne (congrArg string ?_)
            exact String.toList_inj.mp (List.le_antisymm hlt h)
        | bool _ | int _ | uint _ => cases hrank
  · rw [before_of_rank_ne hrank, decide_eq_false_iff_not] at h
    rw [before_of_rank_ne (Ne.symm hrank), decide_eq_true_eq]
    omega

/-- Each key comes before those behind it. -/
def Sorted {α : Type} (entries : List (Key × α)) : Prop :=
  entries.Pairwise fun first second => first.1.before second.1 = true

variable {α : Type} {key : Key} {value : α} {entries : List (Key × α)}

theorem Sorted.nodup (h : Sorted entries) : (entries.map Prod.fst).Nodup := by
  refine List.Pairwise.map Prod.fst ?_ h
  rintro first second hbefore heq
  rw [heq, not_before_self] at hbefore
  cases hbefore

theorem mem_insert {entry : Key × α} (h : entry ∈ insert key value entries) :
    entry = (key, value) ∨ entry ∈ entries := by
  induction entries with
  | nil => exact .inl (List.mem_singleton.mp h)
  | cons first rest ih =>
      obtain ⟨k, a⟩ := first
      unfold insert at h
      split at h
      next =>
        rcases List.mem_cons.mp h with hentry | hrest
        · exact .inl hentry
        · exact .inr (List.mem_cons_of_mem _ hrest)
      next =>
        split at h
        next => exact (List.mem_cons.mp h).imp_right id
        next =>
          rcases List.mem_cons.mp h with rfl | hrest
          · exact .inr List.mem_cons_self
          · exact (ih hrest).imp_right (List.mem_cons_of_mem _)

theorem Sorted.insert (h : Sorted entries) : Sorted (Key.insert key value entries) := by
  induction entries with
  | nil => exact List.pairwise_singleton _ _
  | cons first rest ih =>
      obtain ⟨k, a⟩ := first
      obtain ⟨hfirst, hrest⟩ := List.pairwise_cons.mp h
      unfold Key.insert
      split
      next hk =>
        subst hk
        exact List.pairwise_cons.mpr ⟨hfirst, hrest⟩
      next hk =>
        split
        next hbefore =>
          refine List.pairwise_cons.mpr ⟨?_, h⟩
          intro entry hentry
          rcases List.mem_cons.mp hentry with rfl | hentry
          · exact hbefore
          · exact before_trans hbefore (hfirst entry hentry)
        next hbefore =>
          refine List.pairwise_cons.mpr ⟨?_, ih hrest⟩
          intro entry hentry
          rcases mem_insert hentry with rfl | hentry
          · exact before_of_ne (Ne.symm hk) (by simpa using hbefore)
          · exact hfirst entry hentry

/-- A new key adds an entry. -/
theorem insert_perm (h : key ∉ entries.map Prod.fst) :
    (Key.insert key value entries).Perm ((key, value) :: entries) := by
  induction entries with
  | nil => exact .refl _
  | cons first rest ih =>
      obtain ⟨k, a⟩ := first
      rw [List.map_cons, List.mem_cons, not_or] at h
      rw [Key.insert, if_neg (Ne.symm h.1)]
      split
      next => exact .refl _
      next => exact ((ih h.2).cons _).trans (.swap _ _ _)

/-- The new entry is there, and those under other keys. -/
theorem Sorted.mem_insert_iff (h : Sorted entries) {entry : Key × α} :
    entry ∈ Key.insert key value entries ↔
      entry = (key, value) ∨ entry.1 ≠ key ∧ entry ∈ entries := by
  induction entries with
  | nil => simp [Key.insert]
  | cons first rest ih =>
      obtain ⟨k, a⟩ := first
      obtain ⟨hfirst, hrest⟩ := List.pairwise_cons.mp h
      have hbehind {found : Key × α} (hfound : found ∈ rest) : found.1 ≠ k := by
        rintro rfl
        have hself := hfirst found hfound
        rw [not_before_self] at hself
        cases hself
      unfold Key.insert
      split
      next hk =>
        subst hk
        rw [List.mem_cons, List.mem_cons]
        refine or_congr_right ⟨fun hmem => ⟨hbehind hmem, .inr hmem⟩, ?_⟩
        rintro ⟨hne, rfl | hmem⟩
        · exact absurd rfl hne
        · exact hmem
      next hk =>
        split
        next hbefore =>
          rw [List.mem_cons]
          refine or_congr_right ⟨fun hmem => ⟨?_, hmem⟩, And.right⟩
          rintro rfl
          rcases List.mem_cons.mp hmem with rfl | hmem
          · exact hk rfl
          · have hself := before_trans hbefore (hfirst entry hmem)
            rw [not_before_self] at hself
            cases hself
        next =>
          rw [List.mem_cons, ih hrest, List.mem_cons]
          constructor
          · rintro (rfl | heq | ⟨hne, hmem⟩)
            · exact .inr ⟨hk, .inl rfl⟩
            · exact .inl heq
            · exact .inr ⟨hne, .inr hmem⟩
          · rintro (heq | ⟨hne, rfl | hmem⟩)
            · exact .inr (.inl heq)
            · exact .inl rfl
            · exact .inr (.inr ⟨hne, hmem⟩)

theorem map_insert {β : Type} (f : α → β) :
    (Key.insert key value entries).map (Prod.map id f) =
      Key.insert key (f value) (entries.map (Prod.map id f)) := by
  induction entries with
  | nil => rfl
  | cons first rest ih =>
      obtain ⟨k, a⟩ := first
      by_cases hk : k = key
      · simp [Key.insert, hk]
      · by_cases hbefore : key.before k = true
        · simp [Key.insert, hk, hbefore]
        · simp [Key.insert, hk, hbefore, ih]

/-! Entries that are written one after another. -/

/-- A map of entries as they are written. -/
def collect (pairs : List (Key × α)) : List (Key × α) :=
  pairs.foldl (fun entries pair => pair.1.insert pair.2 entries) []

/-- The last of the entries under a key has a value. -/
def LastUnder (key : Key) (value : α) (pairs : List (Key × α)) : Prop :=
  ∃ before after, pairs = before ++ (key, value) :: after ∧ key ∉ after.map Prod.fst

theorem collect_snoc (pairs : List (Key × α)) (pair : Key × α) :
    collect (pairs ++ [pair]) = pair.1.insert pair.2 (collect pairs) := by
  rw [collect, List.foldl_append]
  rfl

theorem collect_ne_nil {pairs : List (Key × α)} (h : pairs ≠ []) : collect pairs ≠ [] := by
  rw [← List.dropLast_concat_getLast h, collect_snoc]
  exact insert_ne_nil _ _ _

theorem sorted_collect (pairs : List (Key × α)) : Sorted (collect pairs) := by
  induction pairs using List.reverseRecOn with
  | nil => exact .nil
  | append_singleton pairs pair ih =>
      rw [collect_snoc]
      exact ih.insert

/-- Entries under distinct keys are all kept. -/
theorem collect_perm {pairs : List (Key × α)} (h : (pairs.map Prod.fst).Nodup) :
    (collect pairs).Perm pairs := by
  induction pairs using List.reverseRecOn with
  | nil => exact .refl _
  | append_singleton pairs pair ih =>
      rw [List.map_append, List.nodup_append] at h
      obtain ⟨hpairs, _, hne⟩ := h
      have hperm := ih hpairs
      have hnew : pair.1 ∉ (collect pairs).map Prod.fst := fun hmem =>
        hne _ ((hperm.map Prod.fst).mem_iff.mp hmem) _ (List.mem_singleton_self _) rfl
      rw [collect_snoc]
      exact (insert_perm hnew).trans ((hperm.cons _).trans (List.perm_append_singleton _ _).symm)

theorem lastUnder_snoc {pairs : List (Key × α)} {pair : Key × α} :
    LastUnder key value (pairs ++ [pair]) ↔
      (key, value) = pair ∨ key ≠ pair.1 ∧ LastUnder key value pairs := by
  constructor
  · rintro ⟨before, after, heq, hnot⟩
    rcases List.eq_nil_or_concat after with rfl | ⟨after, last, rfl⟩
    · exact .inl (List.singleton_inj.mp (List.append_inj_right' heq rfl)).symm
    · rw [List.concat_eq_append] at heq hnot
      rw [← List.cons_append, ← List.append_assoc] at heq
      obtain ⟨rfl, hlast⟩ := List.append_inj' heq rfl
      cases hlast
      rw [List.map_append, List.mem_append, not_or, List.map_singleton, List.mem_singleton] at hnot
      exact .inr ⟨hnot.2, before, after, rfl, hnot.1⟩
  · rintro (rfl | ⟨hne, before, after, rfl, hnot⟩)
    · exact ⟨pairs, [], rfl, List.not_mem_nil⟩
    · refine ⟨before, after ++ [pair], by simp, ?_⟩
      rw [List.map_append, List.mem_append, not_or, List.map_singleton, List.mem_singleton]
      exact ⟨hnot, hne⟩

/-- Of the entries under one key the last one is kept. -/
theorem mem_collect_iff {pairs : List (Key × α)} :
    (key, value) ∈ collect pairs ↔ LastUnder key value pairs := by
  induction pairs using List.reverseRecOn with
  | nil =>
      refine ⟨nofun, ?_⟩
      rintro ⟨before, after, heq, _⟩
      simp at heq
  | append_singleton pairs pair ih =>
      rw [collect_snoc, (sorted_collect pairs).mem_insert_iff, lastUnder_snoc, ih]

/-! Keys of one kind. -/

/-- `false` comes before `true`, numbers go by value, and strings by their bytes. -/
inductive Precedes : Key → Key → Prop
  | bool : Precedes (.bool false) (.bool true)
  | int {m n : Int64} : m.toInt < n.toInt → Precedes (.int m) (.int n)
  | uint {m n : UInt64} : m.toNat < n.toNat → Precedes (.uint m) (.uint n)
  | string {s t : String} :
      Utf8.encode s.toList < Utf8.encode t.toList → Precedes (.string s) (.string t)

theorem precedes_of_before {a b : Key} (hrank : a.rank = b.rank) (h : a.before b = true) :
    a.Precedes b := by
  cases a with
  | bool a =>
      cases b with
      | bool b => cases a <;> cases b <;> first | exact .bool | cases h
      | int _ | uint _ | string _ => cases hrank
  | int m =>
      cases b with
      | int n => exact .int (of_decide_eq_true h)
      | bool _ | uint _ | string _ => cases hrank
  | uint m =>
      cases b with
      | uint n => exact .uint (of_decide_eq_true h)
      | bool _ | int _ | string _ => cases hrank
  | string s =>
      cases b with
      | string t => exact .string (Utf8.encode_lt (of_decide_eq_true h))
      | bool _ | int _ | uint _ => cases hrank

end Textproto.Key
