import LiveQuiz.Authoring.Service

/-! # What requests of one list key may read

The key reads an owner id of 0 as no owner filter and a viewer id of 0 as no viewer,
where the query tests for `None`.
-/

namespace LiveQuiz.Authoring

set_option autoImplicit false

variable {G : Trigram} {v v' : Option Id} {f f' : Filter}

theorem filter_nonempty (s : Option String) :
    s.filter (· ≠ "") = if s.getD "" = "" then none else some (s.getD "") := by
  cases s with
  | none => rfl
  | some x => by_cases hx : x = "" <;> simp [hx]

theorem nonempty_of_getD {s t : Option String} (h : s.getD "" = t.getD "") :
    s.filter (· ≠ "") = t.filter (· ≠ "") := by
  rw [filter_nonempty s, filter_nonempty t, h]

/-- Ids the key does not tell apart are equal, or 0 and none. -/
theorem eq_or_of_filter {i j : Option Id} (h : i.filter (· ≠ 0) = j.filter (· ≠ 0)) :
    i = j ∨ (i = none ∧ j = some 0) ∨ (i = some 0 ∧ j = none) := by
  rcases i with _ | _ | n <;> rcases j with _ | _ | m
  · exact .inl rfl
  · exact .inr (.inl ⟨rfl, rfl⟩)
  · cases h
  · exact .inr (.inr ⟨rfl, rfl⟩)
  · exact .inl rfl
  · cases h
  · cases h
  · cases h
  · exact .inl h

theorem eq_some_iff_of_filter {i j : Option Id} (h : i.filter (· ≠ 0) = j.filter (· ≠ 0))
    {n : Id} (hn : n ≠ 0) : i = some n ↔ j = some n := by
  obtain rfl | ⟨rfl, rfl⟩ | ⟨rfl, rfl⟩ := eq_or_of_filter h
  · rfl
  · simp [hn.symm]
  · simp [hn.symm]

/-- `quiz_sets.title` is a VARCHAR(160). -/
def titleFits (title : String) : Bool := title.toList.length ≤ 160

def Db.titlesFit (db : Db) : Bool := db.quizzes.all (titleFits ·.title)

/-- The filter has no search text, or one that some title matches. -/
def Filter.searchable (G : Trigram) (f : Filter) : Prop :=
  ∃ title, titleFits title = true ∧ (f.q.filter (· ≠ "")).all (G.similarTo title) = true

theorem listForViewer_unsearchable (h : ¬f.searchable G) {db : Db} (hFit : db.titlesFit = true)
    (v : Option Id) : db.listForViewer G v f = [] := by
  have hNone : db.quizzes.filter (db.visible G v f) = [] := by
    refine List.filter_eq_nil_iff.mpr fun z hz hSeen => ?_
    exact h ⟨z.title, List.all_eq_true.mp hFit z hz, (of_decide_eq_true hSeen).2.1⟩
  simp only [Db.listForViewer, hNone, List.insertionSort_nil, List.drop_nil, List.take_nil,
    List.map_nil]

/-- More quizzes of one owner than a request of the key skips, alike but for their ids. -/
def sampleQuiz (title : String) (ownerId : Id) (isPublished : Bool) (i : Nat) : Quiz where
  id := i + 1
  ownerId := ownerId
  title := title
  description := none
  visibility := if isPublished then .pub else .priv
  isPublished := isPublished
  version := 1
  createdAt := 0

def sample (k : Key) (title : String) (ownerId : Id) (isPublished : Bool) : Db where
  quizzes := (List.range (k.offset + 1)).map (sampleQuiz title ownerId isPublished)
  questions := []
  options := []
  tags := (List.range (k.offset + 1)).map fun i => (i + 1, k.tag)
  events := []

theorem sample_unique (k : Key) (title : String) (ownerId : Id) (isPublished : Bool) :
    (sample k title ownerId isPublished).unique = true := by
  have hIds : ((sample k title ownerId isPublished).quizzes.map (·.id)).Nodup := by
    rw [sample, List.map_map]
    exact List.nodup_range.map fun i j hij => Nat.succ.inj hij
  have hTags : (sample k title ownerId isPublished).tags.Nodup :=
    List.nodup_range.map fun i j hij => Nat.succ.inj (congrArg Prod.fst hij)
  have hFirst : decide ((sample k title ownerId isPublished).quizzes.map (·.id)).Nodup = true :=
    decide_eq_true hIds
  have hLast : decide (sample k title ownerId isPublished).tags.Nodup = true := decide_eq_true hTags
  simp only [Db.unique, hFirst, hLast]
  rfl

theorem sample_titlesFit (k : Key) {title : String} (h : titleFits title = true) (ownerId : Id)
    (isPublished : Bool) : (sample k title ownerId isPublished).titlesFit = true := by
  refine List.all_eq_true.mpr fun z hz => ?_
  obtain ⟨i, -, rfl⟩ := List.mem_map.mp hz
  exact h

section

variable {k : Key} {title : String}

theorem visible_sample (hText : (f.q.filter (· ≠ "")).all (G.similarTo title) = true)
    (hKey : quizListCacheKey v f = k) (ownerId : Id) (isPublished : Bool) {z : Quiz}
    (hz : z ∈ (sample k title ownerId isPublished).quizzes) :
    (sample k title ownerId isPublished).visible G v f z = true ↔
      (isPublished = true ∨ v = some ownerId) ∧ f.ownerId.all (ownerId = ·) = true := by
  obtain ⟨i, hi, rfl⟩ := List.mem_map.mp hz
  subst hKey
  have hTag : (f.tag.filter (· ≠ "")).all
      (fun t => (i + 1, t) ∈ (sample (quizListCacheKey v f) title ownerId isPublished).tags) = true := by
    rw [filter_nonempty]
    split
    · rfl
    · exact decide_eq_true (List.mem_map_of_mem hi)
  have hShown : (sampleQuiz title ownerId isPublished i).visibility = .pub ∧
      (sampleQuiz title ownerId isPublished i).isPublished = true ↔ isPublished = true := by
    cases isPublished <;> simp [sampleQuiz]
  unfold Db.visible
  rw [decide_eq_true_eq, hShown]
  exact ⟨fun h => ⟨h.1, h.2.2.1⟩, fun h => ⟨h.1, hText, h.2, hTag⟩⟩

theorem listForViewer_sample (hText : (f.q.filter (· ≠ "")).all (G.similarTo title) = true)
    (hLimit : 1 ≤ f.limit) (hKey : quizListCacheKey v f = k) (ownerId : Id) (isPublished : Bool) :
    (sample k title ownerId isPublished).listForViewer G v f ≠ [] ↔
      (isPublished = true ∨ v = some ownerId) ∧ f.ownerId.all (ownerId = ·) = true := by
  constructor
  · intro hNonempty
    by_contra hHidden
    have hNone : (sample k title ownerId isPublished).quizzes.filter
        ((sample k title ownerId isPublished).visible G v f) = [] :=
      List.filter_eq_nil_iff.mpr fun z hz hv =>
        hHidden ((visible_sample hText hKey ownerId isPublished hz).mp hv)
    apply hNonempty
    simp only [Db.listForViewer, hNone, List.insertionSort_nil, List.drop_nil, List.take_nil,
      List.map_nil]
  · intro hShown
    have hAll : (sample k title ownerId isPublished).quizzes.filter
        ((sample k title ownerId isPublished).visible G v f) =
          (sample k title ownerId isPublished).quizzes :=
      List.filter_eq_self.mpr fun z hz => (visible_sample hText hKey ownerId isPublished hz).mpr hShown
    apply List.ne_nil_of_length_pos
    have hLength : (sample k title ownerId isPublished).quizzes.length = f.offset + 1 := by
      rw [← hKey, sample, List.length_map, List.length_range]
      rfl
    simp only [Db.listForViewer, hAll, List.length_map, List.length_take, List.length_drop,
      List.length_insertionSort, hLength]
    omega

end

theorem visible_congr (hText : f.q.filter (· ≠ "") = f'.q.filter (· ≠ ""))
    (hTag : f.tag.filter (· ≠ "") = f'.tag.filter (· ≠ "")) (hOwner : f.ownerId = f'.ownerId)
    (db : Db) {z : Quiz}
    (hViewer : f.ownerId.all (z.ownerId = ·) = true → (v = some z.ownerId ↔ v' = some z.ownerId)) :
    db.visible G v f z = db.visible G v' f' z := by
  unfold Db.visible
  rw [← hText, ← hTag, ← hOwner]
  apply decide_eq_decide.mpr
  constructor
  · rintro ⟨hSeen, hQ, hO, hT⟩
    exact ⟨hSeen.imp_right (hViewer hO).mp, hQ, hO, hT⟩
  · rintro ⟨hSeen, hQ, hO, hT⟩
    exact ⟨hSeen.imp_right (hViewer hO).mpr, hQ, hO, hT⟩

/-- The two requests read the same rows: they name the same owner, and the same viewer
unless the owner filter leaves no row in which the two viewers differ. -/
def SameRead (v : Option Id) (f : Filter) (v' : Option Id) (f' : Filter) : Prop :=
  f.ownerId = f'.ownerId ∧ (v = v' ∨ ∃ o, f.ownerId = some o ∧ o ≠ 0)

theorem listForViewer_of_sameRead (hKey : quizListCacheKey v f = quizListCacheKey v' f')
    (h : SameRead v f v' f') (db : Db) : db.listForViewer G v f = db.listForViewer G v' f' := by
  obtain ⟨hViewer, hQ, hOwner, hTag, hLimit, hOffset⟩ := Key.mk.inj hKey
  have hText := nonempty_of_getD hQ
  have hVisible : db.visible G v f = db.visible G v' f' := by
    funext z
    apply visible_congr hText (nonempty_of_getD hTag) h.1
    intro hO
    obtain rfl | ⟨o, hSome, hPos⟩ := h.2
    · rfl
    · rw [hSome] at hO
      obtain rfl : z.ownerId = o := of_decide_eq_true hO
      exact eq_some_iff_of_filter hViewer hPos
  have hOrder : listedBefore G f = listedBefore G f' := by
    funext z z'
    unfold listedBefore
    rw [hText]
  unfold Db.listForViewer
  rw [hVisible, hOrder, hLimit, hOffset]

theorem sameRead_of_agree (hKey : quizListCacheKey v f = quizListCacheKey v' f')
    (hLimit : 1 ≤ f.limit) (hf : f.searchable G)
    (h : ∀ db : Db, db.unique = true → db.titlesFit = true →
      db.listForViewer G v f = db.listForViewer G v' f') : SameRead v f v' f' := by
  obtain ⟨hViewer, hQ, hOwner, hTag, hLimit', hOffset⟩ := Key.mk.inj hKey
  obtain ⟨title, hFits, hText⟩ := hf
  have hText' : (f'.q.filter (· ≠ "")).all (G.similarTo title) = true := by
    rw [← nonempty_of_getD hQ]
    exact hText
  have hIff : ∀ ownerId isPublished,
      (isPublished = true ∨ v = some ownerId) ∧ f.ownerId.all (ownerId = ·) = true ↔
        (isPublished = true ∨ v' = some ownerId) ∧ f'.ownerId.all (ownerId = ·) = true := by
    intro ownerId isPublished
    rw [← listForViewer_sample hText hLimit hKey, ← listForViewer_sample hText' (hLimit' ▸ hLimit) rfl,
      h _ (sample_unique _ title ownerId isPublished) (sample_titlesFit _ hFits ownerId isPublished)]
  have hSame : f.ownerId = f'.ownerId := by
    have hOne := hIff 1 true
    obtain hEq | ⟨hNone, hZero⟩ | ⟨hZero, hNone⟩ := eq_or_of_filter hOwner
    · exact hEq
    · simp [hNone, hZero] at hOne
    · simp [hNone, hZero] at hOne
  refine ⟨hSame, ?_⟩
  have hNobody := hIff 0 false
  rw [← hSame] at hNobody
  cases hO : f.ownerId with
  | none =>
    left
    rw [hO] at hNobody
    obtain hEq | ⟨hNone, hZero⟩ | ⟨hZero, hNone⟩ := eq_or_of_filter hViewer
    · exact hEq
    · simp [hNone, hZero] at hNobody
    · simp [hNone, hZero] at hNobody
  | some o =>
    by_cases ho : o = 0
    · left
      rw [hO, ho] at hNobody
      obtain hEq | ⟨hNone, hZero⟩ | ⟨hZero, hNone⟩ := eq_or_of_filter hViewer
      · exact hEq
      · simp [hNone, hZero] at hNobody
      · simp [hNone, hZero] at hNobody
    · exact .inr ⟨o, rfl, ho⟩

/-- Two requests of one key list the same rows in every state of the tables exactly when
they read the same rows or search for a text that no title matches. -/
theorem sameRows_iff {digest : Type} {sha1 : Key → digest} (hSha1 : Function.Injective sha1)
    (hLimit : 1 ≤ f.limit)
    (hKey : sha1 (quizListCacheKey v f) = sha1 (quizListCacheKey v' f')) :
    (∀ db : Db, db.unique = true → db.titlesFit = true →
      db.listForViewer G v f = db.listForViewer G v' f') ↔
      SameRead v f v' f' ∨ ¬f.searchable G := by
  have hPayload := hSha1 hKey
  constructor
  · intro hAgree
    by_cases hf : f.searchable G
    · exact .inl (sameRead_of_agree hPayload hLimit hf hAgree)
    · exact .inr hf
  · rintro (hSame | hf) db - hFit
    · exact listForViewer_of_sameRead hPayload hSame db
    · have hText := nonempty_of_getD (Key.mk.inj hPayload).2.1
      have hf' : ¬f'.searchable G := by
        unfold Filter.searchable at hf ⊢
        rw [← hText]
        exact hf
      rw [listForViewer_unsearchable hf hFit v, listForViewer_unsearchable hf' hFit v']

/-- A missing and an empty search text. -/
theorem sameRows_empty_search :
    (sample (quizListCacheKey none {}) "Quiz" 7 true).listForViewer Demo.search (some 7)
        { q := some "", ownerId := some 7 } =
      (sample (quizListCacheKey none {}) "Quiz" 7 true).listForViewer Demo.search (some 7)
        { ownerId := some 7 } :=
  (sameRows_iff Function.injective_id (by decide) rfl).mpr (.inl ⟨rfl, .inl rfl⟩)
    (sample (quizListCacheKey none {}) "Quiz" 7 true) (by decide +kernel) (by decide +kernel)

/-- `?owner_id=0` has the key of the unfiltered list. -/
theorem owner_zero_shares_key :
    ∃ db : Db, db.unique = true ∧ db.titlesFit = true ∧
      quizListCacheKey none { ownerId := some 0 } = quizListCacheKey none {} ∧
      db.listForViewer Demo.search none { ownerId := some 0 } = [] ∧
      db.listForViewer Demo.search none {} = [⟨1, "Quiz", true, 1, 0⟩] := by
  refine ⟨sample (quizListCacheKey none {}) "Quiz" 7 true, ?_⟩
  decide +kernel

end LiveQuiz.Authoring
