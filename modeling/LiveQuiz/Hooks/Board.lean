import LiveQuiz.Service.SubmitAnswer
import LiveQuiz.Lib.Contract
import Mathlib.Data.List.Induction

/-! # The hooks of `submit_answer` on one match

The programs are the parts of `submit_answer` behind its commit, any number of them, each
for its own row of one match. They share Redis; a step is one command, or the broadcast.
`log` is a history variable: the commands and broadcasts in order, with their programs.
-/

namespace LiveQuiz.Hooks

open Coroutine

set_option autoImplicit false

structure Hook where
  row : AnswerSubmission
  questionId : Id
  nickname : String
  roomCode : String
  deriving DecidableEq, Repr

structure Board where
  redis : Redis
  log : List (Nat × Op)

def Board.run (b : Board) (pid : Nat) (c : RedisCmd) : Board :=
  ⟨(c.run b.redis).1, b.log ++ [(pid, .redis c)]⟩

abbrev Answer (o : Op) := Outcome Board Hook (Except Exn o.Res)

/-- `d` is the message id that is drawn. -/
def exec (b : Board) (_ : Hook) (pid _fresh : Nat) : (o : Op) → (d : Nat) → Option (Answer o)
  | .nextId, d => some ⟨b, .ok d, none⟩
  | .redis c, _ => some ⟨b.run pid c, .ok (c.run b.redis).2, none⟩
  | .broadcast code message, _ => some ⟨{ b with log := b.log ++ [(pid, .broadcast code message)] }, .ok (), none⟩
  | _, _ => none

/-- The programs of one match; an environment action is a commit, after which the hook
starts. -/
def hooks (m : Id) : Machine Board Op Op.Res Exn Response Hook Nat Hook where
  exec := exec
  env b _ h := if h.row.matchId = m then some (b, some h) else none
  body h := submitHooks h.row h.questionId h.nickname (some h.roomCode)

abbrev HooksState := State Board Op Op.Res Exn Response Hook

abbrev HooksLabel := Label Nat Hook

def start (r : Redis) : HooksState := ⟨⟨r, []⟩, []⟩

def own (pid : Nat) (log : List (Nat × Op)) : List Op := (log.filter (·.1 = pid)).map (·.2)

def tableOf (m : Id) (log : List (Nat × Op)) : List (Id × Int) :=
  log.foldl (fun z x => match x.2 with
    | .redis (.zaddTotal m' p d _) => if m' = m then zincrby z p d else z
    | _ => z) []

def versions (m : Id) (log : List (Nat × Op)) : Nat :=
  log.countP fun x => x.2 = .redis (.incrLbVersion m)

/-- The messages a client of the room is going to get. -/
def updates (log : List (Nat × Op)) : List (Nat × List LeaderboardEntry) :=
  log.filterMap fun x => match x.2 with
    | .broadcast _ (.leaderboardUpdated v top) => some (v, top)
    | _ => none

def rowsOf (top : List LeaderboardEntry) : List (Id × Int) := top.map fun e => (e.participantId, e.score)

section

variable {m : Id} {pid q : Nat} {log log' ext a c : List (Nat × Op)} {o : Op} {x : Nat × Op}

theorem own_append : own pid (log ++ log') = own pid log ++ own pid log' := by
  rw [own, own, own, List.filter_append, List.map_append]

theorem own_snoc : own pid (log ++ [(pid, o)]) = own pid log ++ [o] := by
  rw [own_append]
  simp [own]

theorem own_foreign (h : ∀ x ∈ ext, x.1 ≠ pid) : own pid ext = [] := by
  rw [own, List.map_eq_nil_iff, List.filter_eq_nil_iff]
  exact fun x hx => by simpa using h x hx

theorem mem_own : o ∈ own pid log ↔ (pid, o) ∈ log := by
  simp [own]

theorem own_split (h : log = a ++ (pid, o) :: c) : own pid log = own pid a ++ o :: own pid c := by
  rw [h, own_append]
  simp [own]

/-- An entry that the rest does not have stands in the first part. -/
theorem split_append (hNew : x ∉ ext) (h : log ++ ext = a ++ x :: c) :
    ∃ c', log = a ++ x :: c' ∧ c = c' ++ ext := by
  obtain ⟨a', hLog, hRest⟩ | ⟨a', hA, hExt⟩ := List.append_eq_append_iff.mp h
  · exact absurd (hRest ▸ List.mem_append_right _ List.mem_cons_self) hNew
  · cases a' with
    | nil =>
      rw [List.nil_append] at hExt
      exact absurd (hExt ▸ List.mem_cons_self) hNew
    | cons y c' =>
      obtain ⟨rfl, hTail⟩ := List.cons.inj hExt
      exact ⟨c', hA, hTail⟩

theorem tableOf_snoc : tableOf m (log ++ [(pid, o)]) = match o with
    | .redis (.zaddTotal m' p d _) => if m' = m then zincrby (tableOf m log) p d else tableOf m log
    | _ => tableOf m log := by
  rw [tableOf, List.foldl_append]
  rfl

theorem tableOf_append (h : ∀ x ∈ log', ∀ p d i, x.2 ≠ .redis (.zaddTotal m p d i)) :
    tableOf m (log ++ log') = tableOf m log := by
  induction log' using List.reverseRecOn with
  | nil => rw [List.append_nil]
  | append_singleton log' x ih =>
    obtain ⟨q, o⟩ := x
    have hLast := h (q, o) (List.mem_append_right _ List.mem_cons_self)
    rw [← List.append_assoc, tableOf_snoc, ih fun y hy => h y (List.mem_append_left _ hy)]
    split
    next m' p d i =>
      split
      next hm =>
        subst hm
        exact absurd rfl (hLast p d i)
      · rfl
    · rfl

theorem versions_append : versions m (log ++ log') = versions m log + versions m log' :=
  List.countP_append

end

end LiveQuiz.Hooks
