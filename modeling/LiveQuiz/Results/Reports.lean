import LiveQuiz.Intake.Walk

/-! # What is in the moderation queue

The queue holds what the committed requests had to file, each report with its event, and a
banned word in the title of a published quiz is among them.
-/

namespace LiveQuiz.Intake

open Coroutine

set_option autoImplicit false

section

variable {T : Text} {policy : Policy} {C : SysState → SysLabel → Prop} {S : SysState}

/-- In every run the events of the queue are those of its reports, in their order; the reports
are those that the committed requests had to file, one for each of a player and one for each
finding in a published quiz; and the published quizzes are those of the committed requests,
which were admitted. -/
theorem queue_in_step (h : (intake T policy).Reach C initial S) :
    InStep S.shared.db.reports S.shared.db.outbox ∧
    S.shared.db.reports.map (·.content) = S.shared.log.flatMap (Entry.filed T policy) ∧
    S.shared.db.outbox.filterMap OutboxEvent.published? = S.shared.log.flatMap Entry.published ∧
    ∀ e ∈ S.shared.log, e.Admitted := by
  have hInv := (kept_of_reach h).inv
  exact ⟨hInv.filed.inStep, hInv.filed.contents, hInv.filed.published, hInv.admitted⟩

theorem InStep.announced {rs : List ModerationReport} {es : List OutboxEvent} (h : InStep rs es)
    {r : ModerationReport} (hr : r ∈ rs) : ∃ e ∈ es, Announces r e := by
  unfold InStep at h
  have hFiled : ∃ e ∈ es.filter OutboxEvent.files, Announces r e := by
    generalize es.filter OutboxEvent.files = filed at h
    induction h with
    | nil => cases hr
    | cons hHead _ ih =>
      obtain rfl | hTail := List.mem_cons.mp hr
      · exact ⟨_, List.mem_cons_self, hHead⟩
      · obtain ⟨e, he, hAnnounces⟩ := ih hTail
        exact ⟨e, List.mem_cons_of_mem _ he, hAnnounces⟩
  obtain ⟨e, he, hAnnounces⟩ := hFiled
  exact ⟨e, List.mem_of_mem_filter he, hAnnounces⟩

theorem truncated_eq {reason word : String} (hShort : word.toList.length < 120)
    (h : truncated reason = truncated word) : reason = word := by
  have hTake : reason.toList.take 120 = word.toList.take 120 := String.ofList_injective h
  rw [List.take_of_length_le (by omega : word.toList.length ≤ 120)] at hTake
  have hLength : (reason.toList.take 120).length < 120 := by
    rw [hTake]
    exact hShort
  rw [List.length_take] at hLength
  rw [List.take_of_length_le (by omega)] at hTake
  exact String.toList_injective hTake

theorem Announces.flagged {r : ModerationReport} {e : OutboxEvent} (h : Announces r e)
    {room user quiz : Option Id} {source context word : String}
    (hContent : r.content = findingContent room user quiz source (wordFlag context word)) :
    e.payload = flaggedPayload r.id r.content source (wordFlag context word) := by
  obtain ⟨reporter, p, hReported, -⟩ | ⟨room', user', quiz', source', f, hFound, hPayload⟩ := h.payload
  · have hDetails := congrArg Content.details (hReported.symm.trans hContent)
    cases hText : p.details <;> simp [reportContent, findingContent, hText] at hDetails
  · have hSame := hFound.symm.trans hContent
    simp only [findingContent, Content.mk.injEq, Option.some.injEq, Details.finding.injEq] at hSame
    obtain ⟨-, -, -, -, hReason, hContext, hMatched, rfl, hMore⟩ := hSame
    obtain ⟨reason, context', matched, more⟩ := f
    have hWord : reason = "banned_word" := truncated_eq (by decide) hReason
    subst hWord
    cases hContext
    cases hMatched
    cases hMore
    exact hPayload

theorem published_entry {e : Entry} {p : Publication} (h : p ∈ e.published) :
    ∃ owner i z, e.job = .publish owner i ∧ e.seen = some z ∧ p = ⟨z.id, z.version + 1, owner, z.title⟩ := by
  obtain ⟨job, seen, loaded⟩ := e
  cases job with
  | createReport reporter host payload => cases h
  | publish owner i =>
    cases seen with
    | none => cases h
    | some z => exact ⟨owner, i, z, rfl, rfl, List.mem_singleton.mp h⟩

/-- A banned word in the title of a published quiz is in the queue, with its event, whoever
published it and whatever came between. -/
theorem published_word_reported (h : (intake T policy).Reach C initial S) (hLower : T.lower "" = "")
    {e : OutboxEvent} (he : e ∈ S.shared.db.outbox) {i owner : Id} {version : Nat} {title word : String}
    (hPublished : e.payload = .quizPublished i version owner title) (hWord : word ∈ policy.words)
    (hNonempty : word ≠ "") (hOccurs : occurs word (T.lower title) = true) :
    ∃ r ∈ S.shared.db.reports, ∃ e' ∈ S.shared.db.outbox,
      r.content = findingContent none none (some i) "quiz.publish" (wordFlag "quiz.title" word) ∧
      e'.aggregateId = r.id ∧
      e'.payload = flaggedPayload r.id r.content "quiz.publish" (wordFlag "quiz.title" word) := by
  have hFiled := (kept_of_reach h).inv.filed
  have hTitle : title ≠ "" := by
    rintro rfl
    rw [hLower] at hOccurs
    have hEmpty := List.eq_nil_of_infix_nil (of_decide_eq_true hOccurs)
    exact hNonempty (String.toList_injective hEmpty)
  have hMem : (⟨i, version, owner, title⟩ : Publication) ∈ S.shared.log.flatMap Entry.published := by
    rw [← hFiled.published]
    refine List.mem_filterMap.mpr ⟨e, he, ?_⟩
    unfold OutboxEvent.published?
    rw [hPublished]
  obtain ⟨entry, hEntry, hIn⟩ := List.mem_flatMap.mp hMem
  obtain ⟨owner', j, z, hJob, hSeen, hSame⟩ := published_entry hIn
  cases hSame
  have hFound : wordFlag "quiz.title" word ∈
      flatFlags T policy (fieldsToScan z entry.loaded.1 entry.loaded.2) := by
    refine List.mem_flatMap.mpr ⟨("quiz.title", some z.title), ?_, ?_⟩
    · simp [fieldsToScan]
    · exact wordFlag_mem_scanText hWord hNonempty hOccurs hTitle
  have hContent : findingContent none none (some z.id) "quiz.publish" (wordFlag "quiz.title" word) ∈
      S.shared.db.reports.map (·.content) := by
    rw [hFiled.contents]
    refine List.mem_flatMap.mpr ⟨entry, hEntry, ?_⟩
    unfold Entry.filed
    rw [hJob, hSeen]
    exact List.mem_map_of_mem hFound
  obtain ⟨r, hr, hReport⟩ := List.mem_map.mp hContent
  obtain ⟨e', he', hAnnounces⟩ := hFiled.inStep.announced hr
  exact ⟨r, hr, e', he', hReport, hAnnounces.aggregate, hAnnounces.flagged hReport⟩

theorem filed_finding {e : Entry} {c : Content} (h : c ∈ e.filed T policy) {context matched source : String}
    {more : List (String × String)} (hFinding : c.details = some (.finding context matched source more)) :
    ∃ owner i z, e.job = .publish owner i ∧ e.seen = some z ∧ c.targetQuizSetId = some z.id ∧
      ∃ field ∈ fieldsToScan z e.loaded.1 e.loaded.2, ∃ f ∈ scanText T policy field.2 field.1,
        f.context = context ∧ f.matched = matched := by
  obtain ⟨job, seen, loaded⟩ := e
  cases job with
  | createReport reporter host payload =>
    obtain rfl := List.mem_singleton.mp h
    cases hText : payload.details <;> simp [reportContent, hText] at hFinding
  | publish owner i =>
    cases seen with
    | none => cases h
    | some z =>
      obtain ⟨f, hFlag, rfl⟩ := List.mem_map.mp h
      obtain ⟨field, hField, hFound⟩ := List.mem_flatMap.mp hFlag
      simp only [findingContent, Option.some.injEq, Details.finding.injEq] at hFinding
      exact ⟨owner, i, z, rfl, rfl, rfl, field, hField, f, hFound, hFinding.1, hFinding.2.1⟩

/-- An automatic report is about a quiz that its owner published, and what it names is a banned
word in the text that it names, or what a pattern found there. -/
theorem findings_justified (h : (intake T policy).Reach C initial S) {r : ModerationReport}
    (hr : r ∈ S.shared.db.reports) {context matched source : String} {more : List (String × String)}
    (hFinding : r.content.details = some (.finding context matched source more)) :
    ∃ e ∈ S.shared.log, ∃ owner z, e.job = .publish owner z.id ∧ e.seen = some z ∧ z.ownerId = owner ∧
      r.content.targetQuizSetId = some z.id ∧
      ∃ text, (context, some text) ∈ fieldsToScan z e.loaded.1 e.loaded.2 ∧
        (matched ∈ policy.words ∧ occurs matched (T.lower text) = true ∨
          ∃ p ∈ policy.patterns, p.2 text = some matched) := by
  have hInv := (kept_of_reach h).inv
  have hContent : r.content ∈ S.shared.log.flatMap (Entry.filed T policy) := by
    rw [← hInv.filed.contents]
    exact List.mem_map_of_mem hr
  obtain ⟨e, he, hFiled⟩ := List.mem_flatMap.mp hContent
  obtain ⟨owner, i, z, hJob, hSeen, hTarget, ⟨label, text⟩, hField, f, hFlag, rfl, rfl⟩ :=
    filed_finding hFiled hFinding
  have hAdmitted := hInv.admitted e he
  unfold Entry.Admitted at hAdmitted
  rw [hJob] at hAdmitted
  obtain ⟨z', hSeen', hId, hOwner, -⟩ := hAdmitted
  obtain rfl : z = z' := Option.some.inj (hSeen.symm.trans hSeen')
  subst hId
  cases text with
  | none => cases hFlag
  | some text =>
    obtain ⟨word, hWord, -, hOccurs, rfl⟩ | ⟨p, hPattern, found, hFound, rfl⟩ := scanText_sound hFlag
    · exact ⟨e, he, owner, z, hJob, hSeen, hOwner, hTarget, text, hField, .inl ⟨hWord, hOccurs⟩⟩
    · exact ⟨e, he, owner, z, hJob, hSeen, hOwner, hTarget, text, hField, .inr ⟨p, hPattern, hFound⟩⟩

end

namespace Demo

def text : Text where
  lower s := if s = "Darn sums" then "darn sums" else s
  strip s := s
  str _ := none
  compile _ := none

def policy : Policy := (loadPolicy text (some [("words", .arr [.str "darn"])])).getD .empty

def quiz : Authoring.Db where
  quizzes := [⟨5, 7, "Darn sums", none, .pub, false, 1, 0⟩]
  questions := [⟨100, 5, 1, "2+2", .singleChoice, 20, 1000, none⟩]
  options := [⟨201, 100, 1, "4", true⟩, ⟨202, 100, 2, "5", false⟩]
  tags := []
  events := []

/-- `k` calls of one program, with ids counted up from `value`. -/
def calls (pid k value : Nat) : List SysLabel := (List.range k).map fun i => .op pid { value := value + i }

/-- Its owner publishes the quiz, and a player reports the owner. -/
def filing : List SysLabel :=
  [.env (.put [7, 8] [] quiz), .env (.request (.publish 7 5))] ++ calls 0 13 40 ++
    [.env (.request (.createReport (some 8) "" ⟨"rude", none, some 7, none, none⟩))] ++ calls 1 7 60

def published : OutboxEvent := ⟨49, "quiz_set", 5, .quizPublished 5 2 7 "Darn sums", 0⟩

def found : ModerationReport :=
  ⟨43, findingContent none none (some 5) "quiz.publish" (wordFlag "quiz.title" "darn"), .pending⟩

theorem filing_run : ((intake text policy).run initial filing).any (fun S =>
    published ∈ S.shared.db.outbox ∧ found ∈ S.shared.db.reports ∧ S.shared.db.reports.length = 2) = true := by
  decide +kernel

end Demo

theorem queue_in_step_filing : ∃ S : SysState, S.shared.db.reports.length = 2 ∧
    InStep S.shared.db.reports S.shared.db.outbox ∧
    S.shared.db.reports.map (·.content) = S.shared.log.flatMap (Entry.filed Demo.text Demo.policy) ∧
    S.shared.db.outbox.filterMap OutboxEvent.published? = S.shared.log.flatMap Entry.published ∧
    ∀ e ∈ S.shared.log, e.Admitted := by
  obtain ⟨S, hReach, hS⟩ := Machine.Reach.exists_of_run Demo.filing_run
  exact ⟨S, (of_decide_eq_true hS).2.2, queue_in_step hReach⟩

theorem published_word_reported_darn : ∃ S : SysState, ∃ r ∈ S.shared.db.reports, ∃ e' ∈ S.shared.db.outbox,
    r.content = findingContent none none (some 5) "quiz.publish" (wordFlag "quiz.title" "darn") ∧
    e'.aggregateId = r.id ∧
    e'.payload = flaggedPayload r.id r.content "quiz.publish" (wordFlag "quiz.title" "darn") := by
  obtain ⟨S, hReach, hS⟩ := Machine.Reach.exists_of_run Demo.filing_run
  have hWord : "darn" ∈ Demo.policy.words := by decide
  have hOccurs : occurs "darn" (Demo.text.lower "Darn sums") = true := by decide
  exact ⟨S, published_word_reported hReach (by decide) (of_decide_eq_true hS).1 rfl hWord (by decide) hOccurs⟩

theorem findings_justified_darn : ∃ S : SysState, Demo.found ∈ S.shared.db.reports ∧
    ∃ e ∈ S.shared.log, ∃ owner z, e.job = .publish owner z.id ∧ e.seen = some z ∧ z.ownerId = owner ∧
      Demo.found.content.targetQuizSetId = some z.id ∧
      ∃ text, ("quiz.title", some text) ∈ fieldsToScan z e.loaded.1 e.loaded.2 ∧
        ("darn" ∈ Demo.policy.words ∧ occurs "darn" (Demo.text.lower text) = true ∨
          ∃ p ∈ Demo.policy.patterns, p.2 text = some "darn") := by
  obtain ⟨S, hReach, hS⟩ := Machine.Reach.exists_of_run Demo.filing_run
  have hFound := (of_decide_eq_true hS).2.1
  exact ⟨S, hFound, findings_justified hReach hFound rfl⟩

end LiveQuiz.Intake
