import Mathlib.Algebra.BigOperators.Group.List.Basic
import Mathlib.Data.List.Induction
import Mathlib.Data.List.Sort

/-! # Insertion-ordered groups and rankings

A dict that is filled item by item holds, for each key in the order of its first item,
what the items of that key add up to. A ranking is a list that an asymmetric relation
orders; the relation leaves one such list for a set of elements.
-/

namespace Grouping

set_option autoImplicit false

section

variable {α : Type*} [DecidableEq α]

theorem nodup_eraseDups (l : List α) : l.eraseDups.Nodup := by
  induction h : l.length using Nat.strong_induction_on generalizing l with
  | _ n ih =>
    cases l with
    | nil => exact List.nodup_nil
    | cons a l =>
      rw [List.eraseDups_cons, List.nodup_cons]
      constructor
      · simp
      · refine ih _ ?_ _ rfl
        rw [← h, List.length_cons]
        exact Nat.lt_succ_of_le (List.length_filter_le _ l)

theorem eraseDups_snoc (l : List α) (a : α) :
    (l ++ [a]).eraseDups = if a ∈ l then l.eraseDups else l.eraseDups ++ [a] := by
  rw [List.eraseDups_append]
  split
  next h => simp [List.removeAll, h]
  next h =>
    have hKeep : [a].removeAll l = [a] := by simp [List.removeAll, h]
    rw [hKeep]
    rfl

theorem eraseDups_perm {l l' : List α} (h : l.Perm l') : l.eraseDups.Perm l'.eraseDups := by
  refine (List.perm_ext_iff_of_nodup (nodup_eraseDups l) (nodup_eraseDups l')).mpr fun a => ?_
  rw [List.mem_eraseDups, List.mem_eraseDups, h.mem_iff]

/-- What the first part names stands before what only the second names. -/
theorem pair_sublist_eraseDups {l l' : List α} {a b : α} (ha : a ∈ l) (hb : b ∈ l') (hNew : b ∉ l) :
    [a, b].Sublist (l ++ l').eraseDups := by
  rw [List.eraseDups_append]
  have hLeft : [a].Sublist l.eraseDups := by simpa using ha
  have hRight : [b].Sublist (l'.removeAll l).eraseDups := by
    simpa [List.removeAll, hNew] using hb
  exact hLeft.append hRight

end

section

variable {α κ : Type*} [DecidableEq κ] (key : α → κ)

theorem flatMap_groups {ks : List κ} (hNodup : ks.Nodup) (l : List α) :
    (ks.flatMap fun k => l.filter (key · = k)).Perm (l.filter (key · ∈ ks)) := by
  induction ks with
  | nil => simp
  | cons k ks ih =>
    obtain ⟨hFresh, hRest⟩ := List.nodup_cons.mp hNodup
    have hOwn : (l.filter (key · ∈ k :: ks)).filter (key · = k) = l.filter (key · = k) := by
      rw [List.filter_filter]
      refine List.filter_congr fun a _ => ?_
      by_cases h : key a = k <;> simp [h]
    have hOther : (l.filter (key · ∈ k :: ks)).filter (fun a => !decide (key a = k)) =
        l.filter (key · ∈ ks) := by
      rw [List.filter_filter]
      refine List.filter_congr fun a _ => ?_
      by_cases h : key a = k
      · simp [h, hFresh]
      · simp [h]
    rw [List.flatMap_cons]
    refine ((ih hRest).append_left _).trans ?_
    rw [← hOwn, ← hOther]
    exact List.filter_append_perm _ _

theorem sum_groups {M : Type*} [AddCommMonoid M] (f : α → M) {ks : List κ} (hNodup : ks.Nodup)
    (l : List α) :
    (ks.map fun k => ((l.filter (key · = k)).map f).sum).sum =
      ((l.filter (key · ∈ ks)).map f).sum := by
  rw [← ((flatMap_groups key hNodup l).map f).sum_eq]
  simp [List.flatMap, List.map_flatten, List.sum_flatten, Function.comp_def]

end

section

variable {ι κ β : Type*} [DecidableEq κ] (key : β → κ) (new : κ → β)

/-- One item on a dict of entries: its entry is changed, or made first. -/
def upsert (k : κ) (f : β → β) (entries : List β) : List β :=
  if entries.any (key · = k) then entries.map fun b => if key b = k then f b else b
  else entries ++ [f (new k)]

def group (k : ι → κ) (f : ι → β → β) (items : List ι) (x : κ) : β :=
  (items.filter (k · = x)).foldl (fun b i => f i b) (new x)

variable {key new} {k : ι → κ} {f : ι → β → β}

theorem key_group (hNew : ∀ x, key (new x) = x) (hKey : ∀ i b, key (f i b) = key b)
    (items : List ι) (x : κ) : key (group new k f items x) = x := by
  unfold group
  induction items.filter (k · = x) using List.reverseRecOn with
  | nil => exact hNew x
  | append_singleton items i ih => rw [List.foldl_append, List.foldl_cons, List.foldl_nil, hKey, ih]

theorem group_snoc (items : List ι) (i : ι) (x : κ) :
    group new k f (items ++ [i]) x =
      if k i = x then f i (group new k f items x) else group new k f items x := by
  unfold group
  by_cases h : k i = x
  · rw [if_pos h, List.filter_append, List.foldl_append]
    simp [h]
  · rw [if_neg h, List.filter_append, List.foldl_append]
    simp [h]

theorem group_unseen {items : List ι} {x : κ} (h : x ∉ items.map k) :
    group new k f items x = new x := by
  have hNil : items.filter (k · = x) = [] := by
    refine List.filter_eq_nil_iff.mpr fun i hi hx => h ?_
    exact List.mem_map.mpr ⟨i, hi, of_decide_eq_true hx⟩
  rw [group, hNil]
  rfl

theorem foldl_upsert (hNew : ∀ x, key (new x) = x) (hKey : ∀ i b, key (f i b) = key b)
    (items : List ι) :
    items.foldl (fun entries i => upsert key new (k i) (f i) entries) [] =
      (items.map k).eraseDups.map (group new k f items) := by
  induction items using List.reverseRecOn with
  | nil => rfl
  | append_singleton items i ih =>
    have hKeys := key_group (k := k) hNew hKey items
    rw [List.foldl_append, List.foldl_cons, List.foldl_nil, ih, List.map_append, List.map_singleton,
      eraseDups_snoc, upsert]
    split
    next hAny =>
      simp only [List.any_map, List.any_eq_true, Function.comp, hKeys, decide_eq_true_eq,
        List.mem_eraseDups] at hAny
      obtain ⟨x, hx, rfl⟩ := hAny
      rw [if_pos hx, List.map_map]
      refine List.map_congr_left fun y _ => ?_
      rw [Function.comp, hKeys, group_snoc]
      by_cases h : y = k i
      · rw [if_pos h, if_pos h.symm]
      · rw [if_neg h, if_neg (Ne.symm h)]
    next hAny =>
      have hx : k i ∉ items.map k := by
        intro hx
        refine hAny ?_
        simp only [List.any_map, List.any_eq_true, Function.comp, hKeys, decide_eq_true_eq]
        exact ⟨k i, List.mem_eraseDups.mpr hx, rfl⟩
      rw [if_neg hx, List.map_append, List.map_singleton, group_snoc, if_pos rfl, group_unseen hx]
      congr 1
      refine List.map_congr_left fun y hy => ?_
      rw [group_snoc, if_neg]
      rintro rfl
      exact hx (List.mem_eraseDups.mp hy)

end

section

variable {α : Type*} {r : α → α → Prop} {l l' : List α} {a b : α}

theorem ranking_unique (hAsymm : ∀ a b, r a b → ¬r b a) (h : l.Pairwise r) (h' : l'.Pairwise r)
    (hPerm : l.Perm l') : l = l' :=
  hPerm.eq_of_pairwise (fun a b _ _ hab hba => absurd hba (hAsymm a b hab)) h h'

theorem filter_take {p : α → Bool} (h : l.Pairwise fun a b => p b → p a) (n : Nat) :
    (l.take n).filter p = (l.filter p).take n := by
  induction l generalizing n with
  | nil => simp
  | cons a l ih =>
    cases n with
    | zero => simp
    | succ n =>
      obtain ⟨hHead, hTail⟩ := List.pairwise_cons.mp h
      by_cases ha : p a = true
      · rw [List.take_succ_cons, List.filter_cons_of_pos ha, List.filter_cons_of_pos ha,
          List.take_succ_cons, ih hTail]
      · have hNone : l.filter p = [] := List.filter_eq_nil_iff.mpr fun b hb hp => ha (hHead b hb hp)
        rw [List.take_succ_cons, List.filter_cons_of_neg ha, List.filter_cons_of_neg ha, ih hTail,
          hNone, List.take_nil, List.take_nil]

section

variable {γ : Type*} [LinearOrder γ] {f : α → γ} {s : α → α → Prop}

theorem total_lex (h : ∀ a b, s a b ∨ s b a) :
    Std.Total fun a b => f b < f a ∨ (f a = f b ∧ s a b) := by
  refine ⟨fun a b => ?_⟩
  obtain hLt | hEq | hGt := lt_trichotomy (f a) (f b)
  · exact .inr (.inl hLt)
  · exact (h a b).imp (fun hs => .inr ⟨hEq, hs⟩) fun hs => .inr ⟨hEq.symm, hs⟩
  · exact .inl (.inl hGt)

theorem trans_lex (h : ∀ a b c, s a b → s b c → s a c) :
    IsTrans α fun a b => f b < f a ∨ (f a = f b ∧ s a b) := by
  refine ⟨?_⟩
  rintro a b c (hab | ⟨hab, hs⟩) (hbc | ⟨hbc, hs'⟩)
  · exact .inl (hbc.trans hab)
  · exact .inl (hbc ▸ hab)
  · exact .inl (hab ▸ hbc)
  · exact .inr ⟨hab.trans hbc, h a b c hs hs'⟩

end

theorem not_pair_sublist_swap (hNodup : l.Nodup) (h : [a, b].Sublist l) : ¬[b, a].Sublist l := by
  induction l with
  | nil => cases h
  | cons c l ih =>
    obtain ⟨hFresh, hRest⟩ := List.nodup_cons.mp hNodup
    intro hBack
    cases h with
    | cons _ h =>
      cases hBack with
      | cons _ hBack => exact ih hRest h hBack
      | cons_cons _ hBack => exact hFresh (h.subset (by simp))
    | cons_cons _ h =>
      cases hBack with
      | cons _ hBack => exact hFresh (hBack.subset (by simp))
      | cons_cons _ hBack => exact hFresh (h.subset (by simp))

theorem pair_sublist_or (ha : a ∈ l) (hb : b ∈ l) (hNe : a ≠ b) :
    [a, b].Sublist l ∨ [b, a].Sublist l := by
  obtain ⟨xs, ys, rfl⟩ := List.append_of_mem ha
  rw [List.mem_append, List.mem_cons] at hb
  obtain hb | hb | hb := hb
  · refine .inr ((List.singleton_sublist.mpr hb).append (List.singleton_sublist.mpr ?_))
    exact List.mem_cons_self
  · exact absurd hb.symm hNe
  · exact .inl ((((List.singleton_sublist.mpr hb).cons_cons a)).trans (List.sublist_append_right xs _))

/-- A prefix has whatever stands before one of its elements. -/
theorem mem_take_of_pair {n : Nat} (hNodup : l.Nodup) (hPair : [a, b].Sublist l)
    (hb : b ∈ l.take n) : a ∈ l.take n := by
  by_contra hNot
  have haDrop : a ∈ l.drop n := by
    have hMem := hPair.subset List.mem_cons_self
    rw [← List.take_append_drop n l] at hMem
    exact (List.mem_append.mp hMem).resolve_left hNot
  have hBack : [b, a].Sublist (l.take n ++ l.drop n) := by
    have hLeft : [b].Sublist (l.take n) := by simpa using hb
    have hRight : [a].Sublist (l.drop n) := by simpa using haDrop
    exact hLeft.append hRight
  rw [List.take_append_drop] at hBack
  exact not_pair_sublist_swap hNodup hPair hBack

end

end Grouping
