import LiveQuiz.Hooks.Names
import LiveQuiz.Results.Convergence

/-! # Whose names are missing

An entry of a leaderboard update lacks its name if and only if the hook read the names at a
moment when every hook that had raised this participant's score still had to write the name.
-/

namespace LiveQuiz.Hooks

open Coroutine

set_option autoImplicit false

/-- The participants of the tables at the start of the match are named in every update. -/
def NamesComplete (db : Db) (log : List (Nat × Op)) : Prop :=
  ∀ u ∈ updates log, ∀ e ∈ u.2, ∀ x ∈ db.participants, x.id = e.participantId →
    e.nickname = x.nickname ∧ e.nickname ≠ ""

/-- Every hook that has raised the score of this participant stands before its HSET. -/
def Unwritten (m p : Id) (log : List (Nat × Op)) : Prop := ∀ q, Raised m p q log → ¬ Wrote m q log

/-- No hook that comes to its broadcast reads the names of a list with such a participant. -/
def ReadsWritten (db : Db) (m : Id) (log : List (Nat × Op)) : Prop :=
  ∀ pid a ps c code v top, log = a ++ (pid, .redis (.hmgetNicknames m ps)) :: c →
    (pid, .broadcast code (.leaderboardUpdated v top)) ∈ log →
      ∀ x ∈ db.participants, x.id ∈ ps → ¬ Unwritten m x.id a

section

variable {db : Db} {m : Id} {b : Board} {a c : List (Nat × Op)} {pid : Nat} {p : Id} {nick : String}

theorem name_of_wrote (h : Told db m b) (hLog : b.log = a ++ c) {q : Nat} (hRaised : Raised m p q a)
    (hWrote : Wrote m q a) : ∃ nick, hget (namesOf m a) p = some nick := by
  obtain ⟨pairs, hIn⟩ := hWrote
  obtain ⟨s, t, rfl⟩ := List.append_of_mem hIn
  obtain ⟨p', nick, rfl, hOwn, -⟩ :=
    (h.written s q pairs (t ++ c) (by rw [hLog]; simp)).own
  have hSame : p = p' := by
    apply h.one q
    · rw [hLog]
      exact hRaised.append
    · rw [hLog, List.append_assoc]
      exact hOwn.append
  exact Option.isSome_iff_exists.mp (namesOf_isSome hIn (by simp [hSame]))

/-- A name in the hash is that of the participant's row, and a hook that has raised the score
has written it. -/
theorem wrote_of_name (h : Told db m b) (hLog : b.log = a ++ c)
    (hName : hget (namesOf m a) p = some nick) :
    ¬ Unwritten m p a ∧ ∀ x ∈ db.participants, x.id = p → nick = x.nickname := by
  obtain ⟨q, pairs, hIn, hPair⟩ := namesOf_some hName
  obtain ⟨s, t, rfl⟩ := List.append_of_mem hIn
  obtain ⟨p', nick', rfl, hRaised, hRow⟩ :=
    (h.written s q pairs (t ++ c) (by rw [hLog]; simp)).own
  cases List.mem_singleton.mp hPair
  exact ⟨fun hNone => hNone q hRaised.append ⟨_, hIn⟩, hRow⟩

/-- The read that the log has first is the only one of its hook. -/
theorem read_first (h : Told db m b) {ps ps' : List Id} {a' l c' : List (Nat × Op)}
    (hLog : b.log = a' ++ (pid, .redis (.hmgetNicknames m ps')) :: c') (hFront : a' = a ++ l)
    (hNext : (pid, .redis (.hmgetNicknames m ps)) :: c = l ++ (pid, .redis (.hmgetNicknames m ps')) :: c') :
    a = a' := by
  cases l with
  | nil => rw [hFront, List.append_nil]
  | cons y l =>
    obtain ⟨rfl, -⟩ := List.cons.inj hNext
    apply absurd _ (h.once a' pid ps' ps c' hLog)
    rw [hFront]
    simp

theorem read_once (h : Told db m b) {ps ps' : List Id} {a' c' : List (Nat × Op)}
    (hLog : b.log = a ++ (pid, .redis (.hmgetNicknames m ps)) :: c)
    (hLog' : b.log = a' ++ (pid, .redis (.hmgetNicknames m ps')) :: c') : a = a' := by
  obtain ⟨l, hFront, hNext⟩ | ⟨l, hFront, hNext⟩ := List.append_eq_append_iff.mp (hLog.symm.trans hLog')
  · exact read_first h hLog' hFront hNext
  · exact (read_first h hLog hFront hNext).symm

theorem names_complete_of_told (h : Told db m b) (hNames : ∀ x ∈ db.participants, x.nickname ≠ "") :
    NamesComplete db b.log ↔ ReadsWritten db m b.log := by
  constructor
  · intro hComplete pid a ps c code v top hLog hSent x hx hIn
    obtain ⟨hNamed, hIds⟩ := h.sent pid code v top hSent
    rw [hIds ps (by rw [hLog]; simp)] at hIn
    obtain ⟨e, he, hId⟩ := List.mem_map.mp hIn
    obtain rfl | ⟨a', c', hLog', hEntries⟩ := hNamed
    · cases he
    · obtain rfl := read_once h hLog hLog'
      have hEntry := hComplete (v, top) (mem_updates.mpr ⟨pid, code, hSent⟩) e he x hx hId.symm
      rw [(hEntries e he).1] at hEntry
      cases hName : hget (namesOf m a) e.participantId with
      | none =>
        rw [hName] at hEntry
        exact absurd rfl hEntry.2
      | some nick =>
        rw [← hId]
        exact (wrote_of_name h hLog hName).1
  · intro hReads u hu e he x hx hId
    obtain ⟨pid, code, hSent⟩ := mem_updates.mp hu
    obtain ⟨hEmpty | ⟨a, c, hLog, hEntries⟩, hIds⟩ := h.sent pid code u.1 u.2 hSent
    · rw [hEmpty] at he
      cases he
    · obtain ⟨hNick, q, hRaised⟩ := hEntries e he
      have hIn : x.id ∈ idsOf u.2 := by
        rw [hId]
        exact List.mem_map.mpr ⟨e, he, rfl⟩
      obtain ⟨q, hRest⟩ := not_forall.mp (hReads pid a _ c code u.1 u.2 hLog hSent x hx hIn)
      obtain ⟨hRaised, hWrote⟩ := Classical.not_imp.mp hRest
      obtain ⟨nick, hName⟩ := name_of_wrote h hLog hRaised (not_not.mp hWrote)
      obtain rfl := (wrote_of_name h hLog hName).2 x hx rfl
      rw [hNick, ← hId, hName]
      exact ⟨rfl, hNames x hx⟩

/-- The environment of the hooks: commits of the match whose hook carries the name in the
participant's row. -/
def ownNames (db : Db) : HooksLabel → Bool
  | .op _ _ => true
  | .env h => ownName db h

theorem reach_named {S S' : HooksState} (h : (hooks m).Reach (fun _ l => ownNames db l = true) S S') :
    (named db m).Reach (fun _ _ => True) S S' := by
  refine Machine.Reach.restrict (h.mono fun S l hl => ?_)
  cases l with
  | op pid d =>
    simp only [Machine.admits]
    split <;> rfl
  | env e => exact hl

/-- Over every run of any number of hooks after the start of a match: the updates name all
participants of the start if and only if no hook reads the names of a list with a
participant of whom every hook that has raised the score still has to write the name. -/
theorem names_complete_iff {mt : Match} {room : Room} {count : Nat} {r : Redis} {S : HooksState}
    (hNames : ∀ x ∈ db.participants, x.nickname ≠ "")
    (h : (hooks mt.id).Reach (fun _ l => ownNames db l = true) (start (seeded db mt room count r)) S) :
    NamesComplete db S.shared.log ↔ ReadsWritten db mt.id S.shared.log :=
  names_complete_of_told (carried_start.reach naming_fits sound.restrict (reach_named h)).inv hNames

end

namespace Demo

def room : Room := ⟨52, "QUIZ", 7, 51, .running, some "speed_bonus", some 0, none⟩

def startedMatch : Match := ⟨54, 52, 1, .running, 0, none⟩

def seats : Db where
  rooms := [room]
  participants := [⟨21, 52, "Ann", none, false⟩, ⟨22, 52, "Bob", none, false⟩]
  quizSets := []
  questions := []
  options := []
  matches' := [startedMatch]
  matchQuestions := []
  submissions := []
  finalScores := []
  outbox := []

/-- The first hook has raised Ann's score; the second one runs to its end before the first
writes the name. -/
def nameless : List HooksLabel :=
  [.env (hook 21 900 "Ann"), .env (hook 22 400 "Bob")] ++ calls 0 1 ++ calls 1 9

end Demo

/-- Two answers, the hooks one after the other. -/
theorem names_complete_iff_in_turn : ∃ S : HooksState, S.procs.length = 2 ∧
    S.procs.all Proc.ended = true ∧ NamesComplete Demo.seats S.shared.log ∧
    ReadsWritten Demo.seats 54 S.shared.log := by
  have hRun : ((hooks 54).runWhile (fun _ l => ownNames Demo.seats l)
      (start (seeded Demo.seats Demo.startedMatch Demo.room 1 .empty)) Demo.inTurn).any (fun S =>
      S.procs.length = 2 ∧ S.procs.all Proc.ended = true ∧
      ∀ u ∈ updates S.shared.log, ∀ e ∈ u.2, ∀ x ∈ Demo.seats.participants, x.id = e.participantId →
        e.nickname = x.nickname ∧ e.nickname ≠ "") = true := by
    decide +kernel
  obtain ⟨S, hReach, hS⟩ := Machine.Reach.exists_of_runWhile hRun
  obtain ⟨hTwo, hEnded, hComplete⟩ := of_decide_eq_true hS
  have hIff : NamesComplete Demo.seats S.shared.log ↔
      ReadsWritten Demo.seats Demo.startedMatch.id S.shared.log :=
    names_complete_iff (by decide) hReach
  exact ⟨S, hTwo, hEnded, hComplete, hIff.mp hComplete⟩

/-- Bob's update shows Ann, who was there at the start, without her name. -/
theorem names_missing : ∃ S : HooksState,
    (hooks 54).Reach (fun _ l => ownNames Demo.seats l = true)
      (start (seeded Demo.seats Demo.startedMatch Demo.room 1 .empty)) S ∧
    ∃ u ∈ updates S.shared.log, ∃ e ∈ u.2, ∃ x ∈ Demo.seats.participants,
      x.id = e.participantId ∧ x.nickname = "Ann" ∧ e.nickname = "" := by
  have hRun : ((hooks 54).runWhile (fun _ l => ownNames Demo.seats l)
      (start (seeded Demo.seats Demo.startedMatch Demo.room 1 .empty)) Demo.nameless).any (fun S : HooksState =>
      decide (∃ u ∈ updates S.shared.log, ∃ e ∈ u.2, ∃ x ∈ Demo.seats.participants,
        x.id = e.participantId ∧ x.nickname = "Ann" ∧ e.nickname = "")) = true := by
    decide +kernel
  obtain ⟨S, hReach, hS⟩ := Machine.Reach.exists_of_runWhile hRun
  exact ⟨S, hReach, of_decide_eq_true hS⟩

end LiveQuiz.Hooks
