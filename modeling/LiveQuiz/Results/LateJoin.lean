import LiveQuiz.Lobby.Phases

/-! # Joins after a start

No participant is committed after the match of its room has started, and no join sets the
snapshot of a running match back to the lobby, as long as no start commits between the
status check of a join and its COMMIT, and none writes the snapshot between the COMMIT of a
join and its write.
-/

namespace LiveQuiz.Lobby

open Coroutine

set_option autoImplicit false

/-- The second event may not follow the first. -/
def Event.precludes : Event → Event → Bool
  | .started c, .joined c' => c = c'
  | .wroteRunning c, .wroteLobby c' => c = c'
  | _, _ => false

/-- A join of the room is between its status check and its COMMIT, or, with `committed`,
between the COMMIT and the write of the snapshot. -/
def joinUnderWay (S : SysState) (code : String) (committed : Bool) : Bool :=
  (List.range S.procs.length).any fun q =>
    (S.procs[q]?.any fun p => p.task.joinCode = some code) &&
      (S.shared.stage q).any fun st => st.committed = committed

/-- A start does not commit while a join may still do so, and does not write the snapshot
while a join is about to. -/
def startsAlone (S : SysState) : SysLabel → Bool
  | .op pid d =>
    match S.procs[pid]? with
    | some ⟨.startMatch _ code, .call .commit _⟩ => d.fault = .fail || !joinUnderWay S code false
    | some ⟨.startMatch _ code, .call (.room (.writeSnapshot _ _)) _⟩ =>
      d.fault = .fail || !joinUnderWay S code true
    | _ => true
  | .env _ => true

def World.Has (w : World) (code : String) (i : Id) : Prop := ∃ r, w.roomAt code = some r ∧ r.id = i

/-- In its phases a join has a stage, and the start has not come before it. -/
def Phase.Enters (code : String) (st : Option Stage) (log : List Event) : Phase → Prop
  | .entering c => c = code ∧ st.any (·.committed = false) ∧ .started code ∉ log
  | .joined c => c = code ∧ st.any (·.committed = true) ∧ .wroteRunning code ∉ log
  | _ => True

def Phase.Starts (w : World) (pid : Nat) (code : String) : Phase → Prop
  | .idle => ∀ i st, .setRoom i st ∉ w.tx pid
  | .holding i => w.Has code i ∧ ∀ j st, .setRoom j st ∈ w.tx pid → j = i
  | .moved i => w.Has code i ∧ (∀ j st, .setRoom j st ∈ w.tx pid → j = i) ∧
    ∃ st, .setRoom i st ∈ w.tx pid
  | .started => .started code ∈ w.log
  | _ => True

structure Phase.Fits (w : World) (job : Job) (pid : Nat) (s : Phase) : Prop where
  join : ∀ code, job.joinCode = some code →
    s.Enters code (w.stage pid) w.log ∧ ∀ a, .room a ∉ w.room.tx pid
  start : ∀ code, job.startCode = some code → s.Starts w pid code

/-- The room of a start is out of its lobby, and the events are in a right order. -/
structure History (w : World) : Prop where
  gone : ∀ c, .started c ∈ w.log → ∃ r, w.roomAt c = some r ∧ r.status ≠ .lobby
  late : ∀ c, .wroteRunning c ∈ w.log → .started c ∈ w.log
  ordered : w.log.Pairwise fun a b => a.precludes b = false
  settled : ∀ q i st, .setRoom i st ∈ w.tx q → st ≠ .lobby

/-- The events a call can add. -/
inductive Emits (job : Job) : Op → Event → Prop
  | joined (code : String) (h : job.joinCode = some code) : Emits job (.room .commit) (.joined code)
  | started (code : String) (h : job.startCode = some code) : Emits job .commit (.started code)
  | wroteLobby (code c : String) (s : Rooms.Snapshot) (h : job.joinCode = some code) :
    Emits job (.room (.writeSnapshot c s)) (.wroteLobby c)
  | wroteRunning (code c : String) (s : Rooms.Snapshot) (h : job.startCode = some code) :
    Emits job (.room (.writeSnapshot c s)) (.wroteRunning c)

section

variable {O : Rooms.Outside} {w v : World} {job : Job} {pid n : Nat} {o : Op} {d : Rooms.Decision}
  {out : Answer o} {s : Phase} {code : String}

theorem joins_emits (job : Job) (ws : List Rooms.Write) :
    job.joins ws = [] ∨ ∃ e, job.joins ws = [e] ∧ Emits job (.room .commit) e := by
  unfold Job.joins
  split
  next code _ _ _ =>
    split
    · exact .inr ⟨_, rfl, .joined code rfl⟩
    · exact .inl rfl
  · exact .inl rfl

theorem writes_emits (job : Job) (c : String) (s : Rooms.Snapshot) :
    job.writes c s = [] ∨ ∃ e, job.writes c s = [e] ∧ Emits job (.room (.writeSnapshot c s)) e := by
  unfold Job.writes
  split
  next code _ _ _ =>
    split
    · exact .inr ⟨_, rfl, .wroteLobby code c s rfl⟩
    · exact .inl rfl
  next _ code =>
    split
    · exact .inr ⟨_, rfl, .wroteRunning code c s rfl⟩
    · exact .inl rfl
  · exact .inl rfl

theorem announces_emits (job : Job) (ws : List HostWrite) :
    job.announces ws = [] ∨ ∃ e, job.announces ws = [e] ∧ Emits job .commit e := by
  unfold Job.announces
  split
  next _ code =>
    split
    · exact .inr ⟨_, rfl, .started code rfl⟩
    · exact .inl rfl
  · exact .inl rfl

def Logs (job : Job) (o : Op) (w v : World) : Prop :=
  v.log = w.log ∨ ∃ e, v.log = w.log ++ [e] ∧ Emits job o e

theorem Logs.of_events {es : List Event} (h : v.log = w.log ++ es)
    (hEs : es = [] ∨ ∃ e, es = [e] ∧ Emits job o e) : Logs job o w v := by
  obtain rfl | ⟨e, rfl, hEmits⟩ := hEs
  · exact .inl (h.trans (List.append_nil _))
  · exact .inr ⟨e, h, hEmits⟩

theorem observe_logs (w : World) (job : Job) (pid : Nat) (o : Rooms.Op) (r : Except Exn o.Res) :
    Logs job (.room o) w (w.observe job pid o r) := by
  unfold World.observe
  split
  · split <;> exact .inl rfl
  · exact .inl rfl
  · exact .of_events rfl (joins_emits job _)
  · exact .inl rfl
  · exact .inl rfl
  · exact .inl rfl
  · exact .of_events rfl (writes_emits job _ _)
  · exact .inl rfl

theorem commit_log (w : World) (job : Job) (pid : Nat) :
    (w.commit job pid).log = w.log ++ job.announces (w.tx pid) := by
  rfl

theorem perform_logs (h : perform O w job pid n o d = some out) : Logs job o w out.shared := by
  cases o with
  | room o =>
    obtain ⟨a, -, rfl⟩ := Option.map_eq_some_iff.mp h
    exact observe_logs w job pid o a.result
  | lockRoom c =>
    obtain ⟨a, ha, rfl⟩ := Option.map_eq_some_iff.mp h
    obtain ⟨-, locks, hEq⟩ := lockRow_eq ha
    exact .inl (by rw [hEq])
  | lockRoomById i =>
    obtain ⟨a, ha, rfl⟩ := Option.map_eq_some_iff.mp h
    obtain ⟨-, locks, hEq⟩ := lockRow_eq ha
    exact .inl (by rw [hEq])
  | lockMatch i =>
    obtain ⟨a, ha, rfl⟩ := Option.map_eq_some_iff.mp h
    obtain ⟨-, locks, hEq⟩ := lockRow_eq ha
    exact .inl (by rw [hEq])
  | flush ws =>
    simp only [perform] at h
    split at h
    · cases h
      exact .inl rfl
    · split at h <;> cases h
      exact .inl rfl
  | commit =>
    cases h
    exact .of_events (commit_log w job pid) (announces_emits job _)
  | _ =>
    cases h
    exact .inl rfl

theorem exec_logs (h : exec O w job pid n o d = some out) :
    out.shared.log = w.log ∨
      (d.fault ≠ .fail ∧ ∃ e, out.shared.log = w.log ++ [e] ∧ Emits job o e) := by
  obtain ⟨-, hEq⟩ | ⟨a, hFault, ha, hEq⟩ := exec_effect h
  · exact .inl (by rw [hEq]; rfl)
  · have hLog : out.shared.log = a.shared.log := by
      obtain ⟨-, hEq⟩ | ⟨-, hEq⟩ := hEq
      · rw [hEq]
      · rw [hEq]
        rfl
    rw [hLog]
    exact (perform_logs ha).imp_right fun hNew => ⟨hFault, hNew⟩

theorem exec_log_subset (h : exec O w job pid n o d = some out) : w.log ⊆ out.shared.log := by
  obtain hEq | ⟨-, e, hEq, -⟩ := exec_logs h
  · rw [hEq]
    exact List.Subset.refl _
  · rw [hEq]
    exact List.subset_append_left _ _

theorem next_error (s : Phase) (o : Op) (e : Exn) : s.next o (.error e) = .over := by
  cases o with
  | room o => cases o <;> cases s <;> rfl
  | _ => cases s <;> rfl

theorem joins_tx {o : Rooms.Op} {a : Rooms.Answer o} (hAllowed : s.joins code (.room o))
    (hTx : ∀ b, .room b ∉ w.room.tx pid) (ha : Rooms.perform O w.room pid n o d = some a) :
    ∀ b, .room b ∉ a.shared.tx pid := by
  cases o with
  | flush wr =>
    obtain rfl | ⟨-, rfl⟩ := Rooms.flushWrite_cases ha
    · exact hTx
    · intro b hMem
      change .room b ∈ Function.update w.room.tx pid (w.room.tx pid ++ [w.room.stamp d.age wr]) pid at hMem
      rw [Function.update_self] at hMem
      obtain hOld | hNew := List.mem_append.mp hMem
      · exact hTx b hOld
      · cases wr with
        | room c => cases hAllowed
        | _ => cases List.mem_singleton.mp hNew
  | commit =>
    cases ha
    intro b hMem
    rw [(Rooms.committed w.room pid).tx, Function.update_self] at hMem
    cases hMem
  | countAdmit c m =>
    cases ha
    obtain hEq | ⟨-, hEq⟩ := Rooms.admit_cases w.room pid c m <;> rw [hEq] <;> exact hTx
  | countRelease c =>
    cases ha
    intro b hMem
    have hKept : (Rooms.release w.room pid c).shared.tx = w.room.tx := by
      unfold Rooms.release
      split <;> rfl
    rw [hKept] at hMem
    exact hTx b hMem
  | rollback =>
    cases ha
    simp [Rooms.World.endTx]
  | _ =>
    cases ha
    exact hTx

theorem stageAfter_join {ws : List Rooms.Write} (h : ∀ b, .room b ∉ ws) (st : Option Stage) :
    stageAfter ws st = st.map fun s => { s with committed := true } := by
  unfold stageAfter
  split
  next a hSome =>
    obtain ⟨wr, hMem, hEq⟩ := List.exists_of_findSome?_eq_some hSome
    cases wr with
    | room b => exact absurd hMem (h b)
    | _ => cases hEq
  · rfl

variable {nickname ip : String} {user : Option Rooms.User}

theorem enters_getByCode {c : String} (hHistory : History w)
    (hAllowed : s.joins code (.room (.getByCode c))) :
    (s.next (.room (.getByCode c)) (.ok (w.roomAt c))).Enters code
      ((w.observe (.room (.joinRoom code nickname ip user)) pid (.getByCode c)
        (.ok (w.roomAt c))).stage pid)
      (w.observe (.room (.joinRoom code nickname ip user)) pid (.getByCode c)
        (.ok (w.roomAt c))).log := by
  obtain ⟨rfl, rfl⟩ := hAllowed
  cases hRow : w.roomAt c with
  | none => trivial
  | some r =>
    simp only [Phase.next]
    split
    next hLobby =>
      have hVisits : World.observe w (.room (.joinRoom c nickname ip user)) pid (.getByCode c)
          (.ok (some r)) = w.setStage pid (some ⟨c, r.id, r.status, false, none⟩) :=
        if_pos (by simp [Job.visits, hLobby])
      rw [hVisits]
      refine ⟨rfl, ?_, fun hMem => ?_⟩
      · simp [World.setStage]
      · obtain ⟨r', hr', hNot⟩ := hHistory.gone c hMem
        rw [hRow] at hr'
        cases hr'
        exact hNot hLobby
    · trivial

theorem enters_commit (hHistory : History w) (hTx : ∀ b, .room b ∉ w.room.tx pid)
    (hEnters : (Phase.entering code).Enters code (w.stage pid) w.log) :
    (Phase.joined code).Enters code
      ((w.observe (.room (.joinRoom code nickname ip user)) pid .commit (.ok ())).stage pid)
      (w.observe (.room (.joinRoom code nickname ip user)) pid .commit (.ok ())).log := by
  obtain ⟨-, hStage, hLog⟩ := hEnters
  refine ⟨rfl, ?_, fun hMem => ?_⟩
  · change (Function.update w.stage pid (stageAfter (w.room.tx pid) (w.stage pid)) pid).any _ = true
    rw [Function.update_self, stageAfter_join hTx]
    obtain ⟨st, hSt, -⟩ := (Option.any_eq_true _ _).mp hStage
    rw [hSt]
    rfl
  · obtain hOld | hNew := List.mem_append.mp hMem
    · exact hLog (hHistory.late code hOld)
    · obtain hNil | ⟨e, hOne, hEmits⟩ := joins_emits (.room (.joinRoom code nickname ip user)) (w.room.tx pid)
      · rw [hNil] at hNew
        cases hNew
      · rw [hOne, List.mem_singleton] at hNew
        subst hNew
        cases hEmits

theorem enters_activeParticipants {i : Id} {rows : List Rooms.Participant}
    (hEnters : s.Enters code (w.stage pid) w.log) :
    (s.next (.room (.activeParticipants i)) (.ok rows)).Enters code
      ((w.observe (.room (.joinRoom code nickname ip user)) pid (.activeParticipants i)
        (.ok rows)).stage pid)
      (w.observe (.room (.joinRoom code nickname ip user)) pid (.activeParticipants i)
        (.ok rows)).log := by
  have hMap : ∀ b : Bool, ((w.stage pid).map (Stage.counts rows)).any (·.committed = b) =
      (w.stage pid).any (·.committed = b) := by
    intro b
    cases w.stage pid <;> rfl
  have hStage : (w.observe (.room (.joinRoom code nickname ip user)) pid (.activeParticipants i)
      (.ok rows)).stage pid = (w.stage pid).map (Stage.counts rows) :=
    Function.update_self ..
  have hNext : s.next (.room (.activeParticipants i)) (.ok rows) = s := by cases s <;> rfl
  rw [hNext, hStage]
  cases s with
  | entering c =>
    obtain ⟨hc, hAny, hLog⟩ := hEnters
    exact ⟨hc, (hMap false).trans hAny, hLog⟩
  | joined c =>
    obtain ⟨hc, hAny, hLog⟩ := hEnters
    exact ⟨hc, (hMap true).trans hAny, hLog⟩
  | _ => trivial

theorem admit_ok (pid : Nat) (v : Rooms.World) (c : String) (m : Nat) :
    ∃ k, (Rooms.capacityAdmit v pid c m).result = .ok k := by
  unfold Rooms.capacityAdmit
  split <;> exact ⟨_, rfl⟩

theorem release_ok (pid : Nat) (v : Rooms.World) (c : String) :
    ∃ k, (Rooms.release v pid c).result = .ok k := by
  unfold Rooms.release
  split <;> exact ⟨_, rfl⟩

theorem enters_perform {o : Rooms.Op} {a : Rooms.Answer o} (hHistory : History w)
    (hAllowed : s.joins code (.room o)) (hTx : ∀ b, .room b ∉ w.room.tx pid)
    (hEnters : s.Enters code (w.stage pid) w.log)
    (ha : Rooms.perform O w.room pid n o d = some a) :
    (s.next (.room o) a.result).Enters code
      ((w.observe (.room (.joinRoom code nickname ip user)) pid o a.result).stage pid)
      (w.observe (.room (.joinRoom code nickname ip user)) pid o a.result).log := by
  cases o with
  | getByCode c =>
    cases ha
    exact enters_getByCode hHistory hAllowed
  | commit =>
    cases ha
    obtain rfl : s = .entering code := hAllowed
    exact enters_commit hHistory hTx hEnters
  | activeParticipants i =>
    cases ha
    exact enters_activeParticipants hEnters
  | flush wr =>
    obtain rfl | ⟨-, rfl⟩ := Rooms.flushWrite_cases ha
    · rw [next_error]
      trivial
    · have hNext : s.next (.room (.flush wr)) (.ok ()) = s := by cases s <;> rfl
      rw [hNext]
      exact hEnters
  | countAdmit c m =>
    cases ha
    obtain ⟨v, hv⟩ := admit_ok pid w.room c m
    have hNext : s.next (.room (.countAdmit c m)) (.ok v) = s := by cases s <;> rfl
    rw [hv, hNext]
    exact hEnters
  | countRelease c =>
    cases ha
    obtain ⟨v, hv⟩ := release_ok pid w.room c
    have hNext : s.next (.room (.countRelease c)) (.ok v) = s := by cases s <;> rfl
    rw [hv, hNext]
    exact hEnters
  | rollback =>
    cases ha
    have hNext : s.next (.room .rollback) (.ok ()) = .over := by cases s <;> rfl
    rw [hNext]
    trivial
  | readSnapshot c => exact False.elim hAllowed
  | writeSnapshot c snap =>
    cases ha
    obtain ⟨rfl, rfl⟩ := hAllowed
    trivial
  | _ =>
    cases ha
    cases s <;> exact hEnters

theorem enters_exec (hHistory : History w) (hJob : job.joinCode = some code)
    (hAllowed : s.joins code o) (hTx : ∀ b, .room b ∉ w.room.tx pid)
    (hEnters : s.Enters code (w.stage pid) w.log) (h : exec O w job pid n o d = some out) :
    (s.next o out.result).Enters code (out.shared.stage pid) out.shared.log ∧
      ∀ b, .room b ∉ out.shared.room.tx pid := by
  cases o with
  | room o =>
    cases job with
    | room job =>
      cases job with
      | joinRoom c nickname ip user =>
        cases hJob
        obtain ⟨-, hOk⟩ | ⟨-, rfl⟩ | ⟨-, b, hb, rfl⟩ := exec_cases h
        · obtain ⟨a, ha, rfl⟩ := Option.map_eq_some_iff.mp hOk
          exact ⟨enters_perform hHistory hAllowed hTx hEnters ha, joins_tx hAllowed hTx ha⟩
        · rw [next_error]
          exact ⟨trivial, hTx⟩
        · obtain ⟨a, ha, rfl⟩ := Option.map_eq_some_iff.mp hb
          rw [next_error]
          exact ⟨trivial, joins_tx hAllowed hTx ha⟩
      | _ => cases hJob
    | _ => cases hJob
  | _ => exact False.elim hAllowed

theorem perform_pending (h : perform O w job pid n o d = some out) :
    out.shared.tx pid = w.tx pid ∨ out.shared.tx pid = [] ∨
      ∃ ws, o = .flush ws ∧ out.shared.tx pid = w.tx pid ++ ws := by
  cases o with
  | room o =>
    obtain ⟨a, -, rfl⟩ := Option.map_eq_some_iff.mp h
    exact .inl (congrFun (observe_room w job pid o a.result).1 pid)
  | lockRoom c =>
    obtain ⟨a, ha, rfl⟩ := Option.map_eq_some_iff.mp h
    obtain ⟨-, locks, hEq⟩ := lockRow_eq ha
    exact .inl (by rw [hEq])
  | lockRoomById i =>
    obtain ⟨a, ha, rfl⟩ := Option.map_eq_some_iff.mp h
    obtain ⟨-, locks, hEq⟩ := lockRow_eq ha
    exact .inl (by rw [hEq])
  | lockMatch i =>
    obtain ⟨a, ha, rfl⟩ := Option.map_eq_some_iff.mp h
    obtain ⟨-, locks, hEq⟩ := lockRow_eq ha
    exact .inl (by rw [hEq])
  | flush ws =>
    simp only [perform] at h
    split at h
    · cases h
      exact .inl rfl
    · split at h <;> cases h
      exact .inr (.inr ⟨ws, rfl, Function.update_self ..⟩)
  | commit =>
    cases h
    exact .inr (.inl (Function.update_self ..))
  | rollback =>
    cases h
    exact .inr (.inl (Function.update_self ..))
  | _ =>
    cases h
    exact .inl rfl

theorem exec_pending (h : exec O w job pid n o d = some out) :
    out.shared.tx pid = w.tx pid ∨ out.shared.tx pid = [] ∨
      ∃ ws, o = .flush ws ∧ out.shared.tx pid = w.tx pid ++ ws := by
  obtain ⟨-, hEq⟩ | ⟨a, -, ha, ⟨-, hEq⟩ | ⟨-, hEq⟩⟩ := exec_effect h
  · exact .inl (by rw [hEq]; rfl)
  · rw [hEq]
    exact perform_pending ha
  · rw [hEq]
    exact perform_pending ha

theorem World.Has.onward {i : Id} (h : w.Has code i) (hOn : Onward w v) : v.Has code i := by
  obtain ⟨r, hr, hId⟩ := h
  obtain ⟨r', hr', hId', -⟩ := hOn code r hr
  exact ⟨r', hr', hId'.trans hId⟩

theorem Phase.Starts.stable (h : s.Starts w pid code) (hOn : Onward w v)
    (hPending : v.tx pid = w.tx pid) (hLog : w.log ⊆ v.log) : s.Starts v pid code := by
  cases s with
  | idle =>
    intro i st
    rw [hPending]
    exact h i st
  | holding i =>
    refine ⟨h.1.onward hOn, ?_⟩
    rw [hPending]
    exact h.2
  | moved i =>
    refine ⟨h.1.onward hOn, ?_⟩
    rw [hPending]
    exact h.2
  | started => exact hLog h
  | _ => trivial

theorem commit_moves {i : Id} (hHas : w.Has code i) (hMoves : ∃ st, .setRoom i st ∈ w.tx pid)
    (hNot : ∀ j st, .setRoom j st ∈ w.tx pid → st ≠ .lobby) :
    ∃ r, (w.commit job pid).roomAt code = some r ∧ r.status ≠ .lobby := by
  obtain ⟨r, hr, rfl⟩ := hHas
  obtain ⟨st, hMem⟩ := hMoves
  have hRooms : (w.commit job pid).room.rooms = w.room.rooms.map (patched (w.tx pid)) ++ [] := by
    rw [List.append_nil]
    exact (applied (w.tx pid) w).rooms
  refine ⟨_, roomAt_patched hRooms hr, fun hLobby => ?_⟩
  exact (patched_lobby hNot hLobby).2 st hMem

theorem starts_perform {host : Id} (hAllowed : s.starts code o) (hStarts : s.Starts w pid code)
    (hOn : Onward w out.shared) (hLog : w.log ⊆ out.shared.log)
    (h : perform O w (.startMatch host code) pid n o d = some out) :
    (s.next o out.result).Starts out.shared pid code := by
  cases o with
  | room o =>
    obtain ⟨a, ha, rfl⟩ := Option.map_eq_some_iff.mp h
    have hKept := hStarts.stable hOn (congrFun (observe_room w _ pid o a.result).1 pid) hLog
    cases o with
    | nextId =>
      cases ha
      cases s <;> exact hKept
    | readSnapshot c =>
      cases ha
      cases s <;> exact hKept
    | writeSnapshot c snap =>
      cases ha
      obtain ⟨rfl, rfl⟩ := hAllowed
      exact hKept
    | _ => exact False.elim hAllowed
  | lockRoom c =>
    obtain ⟨⟨v, row⟩, ha, rfl⟩ := Option.map_eq_some_iff.mp h
    obtain ⟨rfl, rfl⟩ := hAllowed
    obtain ⟨rfl, locks, rfl⟩ := lockRow_eq ha
    change (Phase.next .idle (.lockRoom c) (.ok (w.roomAt c))).Starts _ pid c
    cases hRow : w.roomAt c with
    | none => exact hStarts
    | some r => exact ⟨⟨r, hRow, rfl⟩, fun j st hMem => absurd hMem (hStarts j st)⟩
  | questionCount i =>
    cases h
    cases s <;> exact hStarts
  | flush ws =>
    obtain ⟨i, rfl, hOnly⟩ := hAllowed
    simp only [perform] at h
    split at h
    · cases h
      rw [next_error]
      trivial
    split at h <;> cases h
    obtain ⟨hHas, hOne⟩ := hStarts
    have hBoth : ∀ j st, .setRoom j st ∈ Function.update w.tx pid (w.tx pid ++ ws) pid → j = i := by
      intro j st hMem
      rw [Function.update_self] at hMem
      exact (List.mem_append.mp hMem).elim (hOne j st) (hOnly j st)
    simp only [Phase.next]
    split
    next hSome =>
      refine ⟨hHas, hBoth, ?_⟩
      obtain ⟨⟨j, st⟩, hFind⟩ := Option.isSome_iff_exists.mp hSome
      obtain ⟨wr, hMem, hEq⟩ := List.exists_of_findSome?_eq_some hFind
      cases wr with
      | setRoom j' st' =>
        cases hEq
        obtain rfl := hOnly j st hMem
        refine ⟨st, ?_⟩
        change _ ∈ Function.update w.tx pid (w.tx pid ++ ws) pid
        rw [Function.update_self]
        exact List.mem_append_right _ hMem
      | _ => cases hEq
    · exact ⟨hHas, hBoth⟩
  | commit =>
    obtain ⟨i, rfl⟩ := hAllowed
    cases h
    obtain ⟨-, -, st, hMem⟩ := hStarts
    change _ ∈ w.log ++ Job.announces (w.tx pid) (.startMatch host code)
    have hSome : ((w.tx pid).findSome? HostWrite.room?).isSome = true := by
      rw [List.findSome?_isSome_iff]
      exact ⟨_, hMem, rfl⟩
    rw [Job.announces, if_pos hSome]
    exact List.mem_append_right _ List.mem_cons_self
  | rollback =>
    have hNext : s.next .rollback (.ok ()) = .over := by cases s <;> rfl
    cases h
    rw [hNext]
    trivial
  | _ => exact False.elim hAllowed

theorem starts_exec (hJob : job.startCode = some code) (hAllowed : s.starts code o)
    (hStarts : s.Starts w pid code) (hOn : Onward w out.shared) (hLog : w.log ⊆ out.shared.log)
    (h : exec O w job pid n o d = some out) :
    (s.next o out.result).Starts out.shared pid code := by
  cases job with
  | startMatch host c =>
    cases hJob
    obtain ⟨-, hOk⟩ | ⟨-, rfl⟩ | ⟨-, b, -, rfl⟩ := exec_cases h
    · exact starts_perform hAllowed hStarts hOn hLog hOk
    · rw [next_error]
      trivial
    · rw [next_error]
      trivial
  | _ => cases hJob

end

structure Orderly (S : SysState) : Prop where
  history : History S.shared
  unused : ∀ q, S.procs.length ≤ q → S.shared.tx q = [] ∧ S.shared.room.tx q = []
  phases : ∀ q p, S.procs[q]? = some p →
    ∃ s, Tracks p.task (fun _ _ => True) s p.prog ∧ s.Fits S.shared p.task q

section

variable {O : Rooms.Outside} {S S' : SysState} {pid : Nat} {t : Job} {o : Op}
  {k : Except Exn o.Res → Coro Ret} {d : Rooms.Decision} {out : Answer o} {s : Phase} {code : String}

theorem joinUnderWay_of {q : Nat} {p : Proc Op Op.Res Exn Ret Job} {b : Bool}
    (hProc : S.procs[q]? = some p) (hJob : p.task.joinCode = some code)
    (hStage : (S.shared.stage q).any (·.committed = b) = true) : joinUnderWay S code b = true := by
  refine List.any_eq_true.mpr ⟨q, List.mem_range.mpr (List.getElem?_eq_some_iff.mp hProc).1, ?_⟩
  rw [hProc, hStage]
  simp [hJob]

theorem alone {e : Event} (hCond : startsAlone S (.op pid d) = true)
    (hProc : S.procs[pid]? = some ⟨t, .call o k⟩) (hFault : d.fault ≠ .fail)
    (hAllowed : s.allows t o) (hEmits : Emits t o e) :
    (e = .started code → joinUnderWay S code false = false) ∧
      (e = .wroteRunning code → joinUnderWay S code true = false) := by
  simp only [startsAlone, hProc] at hCond
  cases hEmits with
  | started c hJob =>
    cases t with
    | startMatch host c' =>
      cases hJob
      refine ⟨?_, Event.noConfusion⟩
      rintro ⟨⟩
      simpa [hFault] using hCond
    | _ => cases hJob
  | wroteRunning c' c snap hJob =>
    cases t with
    | startMatch host c' =>
      cases hJob
      obtain ⟨-, rfl⟩ := hAllowed.2.1 _ rfl
      refine ⟨Event.noConfusion, ?_⟩
      rintro ⟨⟩
      simpa [hFault] using hCond
    | _ => cases hJob
  | _ => exact ⟨Event.noConfusion, Event.noConfusion⟩

theorem Phase.Enters.stable {q : Nat} {p : Proc Op Op.Res Exn Ret Job} {u : Phase}
    (hq : S.procs[q]? = some p) (hJoin : p.task.joinCode = some code)
    (hEnters : u.Enters code (S.shared.stage q) S.shared.log)
    (hLogs : out.shared.log = S.shared.log ∨
      ∃ e, out.shared.log = S.shared.log ++ [e] ∧
        (e = .started code → joinUnderWay S code false = false) ∧
        (e = .wroteRunning code → joinUnderWay S code true = false)) :
    u.Enters code (S.shared.stage q) out.shared.log := by
  obtain hLog | ⟨e, hLog, hStarted, hRunning⟩ := hLogs
  · rw [hLog]
    exact hEnters
  rw [hLog]
  cases u with
  | entering c =>
    obtain ⟨hc, hStage, hNot⟩ := hEnters
    refine ⟨hc, hStage, fun hMem => ?_⟩
    obtain hOld | hNew := List.mem_append.mp hMem
    · exact hNot hOld
    · have hAlone := hStarted (List.mem_singleton.mp hNew).symm
      rw [joinUnderWay_of hq hJoin hStage] at hAlone
      cases hAlone
  | joined c =>
    obtain ⟨hc, hStage, hNot⟩ := hEnters
    refine ⟨hc, hStage, fun hMem => ?_⟩
    obtain hOld | hNew := List.mem_append.mp hMem
    · exact hNot hOld
    · have hAlone := hRunning (List.mem_singleton.mp hNew).symm
      rw [joinUnderWay_of hq hJoin hStage] at hAlone
      cases hAlone
  | _ => trivial

theorem not_precluded {e b : Event} (hAllowed : s.allows t o)
    (hFits : s.Fits S.shared t pid) (hEmits : Emits t o e) (hMem : b ∈ S.shared.log) :
    b.precludes e = false := by
  cases hEmits with
  | joined c hJob =>
    obtain rfl : s = .entering c := hAllowed.1 c hJob
    obtain ⟨⟨-, -, hNot⟩, -⟩ := hFits.join c hJob
    cases b with
    | started c' =>
      refine decide_eq_false fun hEq => hNot ?_
      rw [← hEq]
      exact hMem
    | _ => rfl
  | wroteLobby c' c snap hJob =>
    obtain ⟨rfl, rfl⟩ := hAllowed.1 c' hJob
    obtain ⟨⟨-, -, hNot⟩, -⟩ := hFits.join c hJob
    cases b with
    | wroteRunning c' =>
      refine decide_eq_false fun hEq => hNot ?_
      rw [← hEq]
      exact hMem
    | _ => rfl
  | _ => cases b <;> rfl

theorem history_exec (h : Orderly S) (hProc : S.procs[pid]? = some ⟨t, .call o k⟩)
    (hAllowed : s.allows t o) (hFits : s.Fits S.shared t pid)
    (hExec : exec O S.shared t pid S.procs.length o d = some out) : History out.shared := by
  obtain ⟨hGone, hLate, hOrdered, hSettled⟩ := h.history
  have hOn := exec_onward hExec (hSettled pid)
  have hLog := exec_logs hExec
  constructor
  · intro c hMem
    have hOld : .started c ∈ S.shared.log → ∃ r, out.shared.roomAt c = some r ∧ r.status ≠ .lobby := by
      intro hMem
      obtain ⟨r, hr, hNot⟩ := hGone c hMem
      obtain ⟨r', hr', -, hLobby⟩ := hOn c r hr
      exact ⟨r', hr', fun hl => hNot (hLobby hl)⟩
    obtain hSame | ⟨hFault, e, hNew, hEmits⟩ := hLog
    · exact hOld (hSame ▸ hMem)
    · rw [hNew] at hMem
      obtain hMem | hMem := List.mem_append.mp hMem
      · exact hOld hMem
      obtain rfl := List.mem_singleton.mp hMem
      cases hEmits with
      | started _ hJob =>
        obtain ⟨i, rfl⟩ := hAllowed.2.1 c hJob
        obtain ⟨hHas, -, hMoves⟩ := hFits.start c hJob
        obtain ⟨r, hr, hNot⟩ := commit_moves hHas hMoves (hSettled pid)
        obtain ⟨hFail, -⟩ | ⟨a, -, ha, hEq⟩ := exec_effect hExec
        · exact absurd hFail hFault
        · cases ha
          obtain ⟨-, hEq⟩ | ⟨-, hEq⟩ := hEq <;> rw [hEq] <;> exact ⟨r, hr, hNot⟩
  · intro c hMem
    have hSub := exec_log_subset hExec
    obtain hSame | ⟨-, e, hNew, hEmits⟩ := hLog
    · exact hSub (hLate c (hSame ▸ hMem))
    · rw [hNew] at hMem
      obtain hMem | hMem := List.mem_append.mp hMem
      · exact hSub (hLate c hMem)
      obtain rfl := List.mem_singleton.mp hMem
      cases hEmits with
      | wroteRunning c' _ snap hJob =>
        obtain ⟨rfl, rfl⟩ := hAllowed.2.1 c' hJob
        exact hSub (hFits.start c hJob)
  · obtain hSame | ⟨-, e, hNew, hEmits⟩ := hLog
    · rw [hSame]
      exact hOrdered
    · rw [hNew, List.pairwise_append]
      refine ⟨hOrdered, List.pairwise_singleton _ _, fun b hMem e' hMem' => ?_⟩
      obtain rfl := List.mem_singleton.mp hMem'
      exact not_precluded hAllowed hFits hEmits hMem
  · intro q i st hMem
    by_cases hq : q = pid
    · subst hq
      obtain hSame | hNil | ⟨ws, rfl, hMore⟩ := exec_pending hExec
      · rw [hSame] at hMem
        exact hSettled q i st hMem
      · rw [hNil] at hMem
        cases hMem
      · rw [hMore] at hMem
        obtain hMem | hMem := List.mem_append.mp hMem
        · exact hSettled q i st hMem
        · exact hAllowed.2.2 ws rfl i st hMem
    · rw [(exec_own hExec hq).pending] at hMem
      exact hSettled q i st hMem

theorem orderly_op (h : Orderly S) (hCond : startsAlone S (.op pid d) = true)
    (hProc : S.procs[pid]? = some ⟨t, .call o k⟩)
    (hExec : exec O S.shared t pid S.procs.length o d = some out) :
    Orderly ⟨out.shared, S.procs.set pid ⟨t, k out.result⟩⟩ := by
  have hPid := (List.getElem?_eq_some_iff.mp hProc).1
  obtain ⟨s, ⟨hAllowed, hNext⟩, hFits⟩ := h.phases pid _ hProc
  have hOn := exec_onward hExec (h.history.settled pid)
  have hSub := exec_log_subset hExec
  refine ⟨history_exec h hProc hAllowed hFits hExec, fun q hq => ?_, fun q p hq => ?_⟩
  · rw [List.length_set] at hq
    have hNe : q ≠ pid := by omega
    have hOwn := exec_own hExec hNe
    rw [hOwn.pending, hOwn.tx]
    exact h.unused q hq
  by_cases hEq : q = pid
  · subst hEq
    rw [List.getElem?_set_self hPid] at hq
    cases hq
    refine ⟨s.next o out.result, hNext out.result, fun code hJob => ?_, fun code hJob => ?_⟩
    · obtain ⟨hEnters, hTx⟩ := hFits.join code hJob
      exact enters_exec h.history hJob (hAllowed.1 code hJob) hTx hEnters hExec
    · exact starts_exec hJob (hAllowed.2.1 code hJob) (hFits.start code hJob) hOn hSub hExec
  · rw [List.getElem?_set_ne (Ne.symm hEq)] at hq
    obtain ⟨u, hTracks, hFitsQ⟩ := h.phases q p hq
    have hOwn := exec_own hExec hEq
    refine ⟨u, hTracks, fun code hJob => ?_, fun code hJob => ?_⟩
    · obtain ⟨hEnters, hTx⟩ := hFitsQ.join code hJob
      rw [hOwn.stage, hOwn.tx]
      refine ⟨hEnters.stable hq hJob ?_, hTx⟩
      refine (exec_logs hExec).imp_right ?_
      rintro ⟨hFault, e, hNew, hEmits⟩
      exact ⟨e, hNew, alone hCond hProc hFault hAllowed hEmits⟩
    · exact (hFitsQ.start code hJob).stable hOn hOwn.pending hSub

theorem orderly_env {e : EnvAction} {res : World × Option Job} (h : Orderly S)
    (hEnv : env S.shared S.procs.length e = some res) :
    Orderly ⟨res.1, S.procs ++ res.2.toList.map (lobby O).start⟩ := by
  obtain ⟨hRooms, -, hTx, hPending, hStage, hLog, -⟩ := env_rooms hEnv
  have hOn : Onward S.shared res.1 := .of_rooms hRooms
  obtain ⟨hGone, hLate, hOrdered, hSettled⟩ := h.history
  refine ⟨⟨fun c hMem => ?_, ?_, ?_, ?_⟩, fun q hq => ?_, fun q p hq => ?_⟩
  · rw [hLog] at hMem
    obtain ⟨r, hr, hNot⟩ := hGone c hMem
    obtain ⟨r', hr', -, hLobby⟩ := hOn c r hr
    exact ⟨r', hr', fun hl => hNot (hLobby hl)⟩
  · rw [hLog]
    exact hLate
  · rw [hLog]
    exact hOrdered
  · rw [hPending]
    exact hSettled
  · rw [hPending, hTx]
    refine h.unused q ?_
    rw [List.length_append] at hq
    omega
  obtain hOld | ⟨rfl, j, -, rfl⟩ := getElem?_append_spawned hq
  · obtain ⟨u, hTracks, hFits⟩ := h.phases q p hOld
    refine ⟨u, hTracks, fun code hJob => ?_, fun code hJob => ?_⟩
    · rw [hStage, hLog, hTx]
      exact hFits.join code hJob
    · exact (hFits.start code hJob).stable hOn (congrFun hPending q) (by rw [hLog]; exact List.Subset.refl _)
  · obtain ⟨hNone, hTxNone⟩ := h.unused S.procs.length le_rfl
    refine ⟨.idle, jobBody_tracks O j, fun code _ => ⟨trivial, fun b hMem => ?_⟩,
      fun code _ i st hMem => ?_⟩
    · rw [hTx, hTxNone] at hMem
      cases hMem
    · rw [hPending, hNone] at hMem
      cases hMem

theorem orderly_reach {quizzes : List Rooms.Quiz}
    (h : (lobby O).Reach (fun S l => startsAlone S l = true) (initial quizzes) S) : Orderly S := by
  induction h with
  | refl =>
    refine ⟨⟨fun c hMem => ?_, fun c hMem => ?_, List.Pairwise.nil, fun q i st hMem => ?_⟩,
      fun q _ => ⟨rfl, rfl⟩, fun q p hq => ?_⟩
    · cases hMem
    · cases hMem
    · cases hMem
    · cases hq
  | tail _ hCond hStep ih =>
    obtain ⟨pid, d, t, o, k, out, rfl, hProc, hExec, rfl⟩ | ⟨e, out, rfl, hEnv, rfl⟩ :=
      Machine.step_cases hStep
    · have hSpawned : out.spawned = none := exec_spawned hExec
      rw [hSpawned, Option.toList_none, List.map_nil, List.append_nil]
      exact orderly_op ih hCond hProc hExec
    · exact orderly_env ih hEnv

/-- While starts and joins of a room take turns: no participant is committed after the
start of the match, and no join writes a lobby snapshot after a running one. -/
theorem no_join_after_start {quizzes : List Rooms.Quiz}
    (h : (lobby O).Reach (fun S l => startsAlone S l = true) (initial quizzes) S) :
    S.shared.log.Pairwise fun a b => a.precludes b = false :=
  (orderly_reach h).history.ordered

end

namespace Demo

def outside : Rooms.Outside := ⟨fun _ => [], fun _ _ id _ => toString id, id, "duplicate key"⟩

/-- `k` calls of one program, with ids counted up from `value`. -/
def calls (pid k value : Nat) : List SysLabel :=
  (List.range k).map fun i => .op pid { value := value + i, text := "R2D2C3" }

def join (nickname : String) : SysLabel :=
  .env (.request (.room (.joinRoom "R2D2C3" nickname "10.0.0.1" none)))

def start : SysLabel := .env (.request (.startMatch 7 "R2D2C3"))

def opened : List SysLabel :=
  [.env (.request (.room (.createRoom ⟨7, "host"⟩ ⟨5, 2, []⟩)))] ++ calls 0 12 100

def inTurn : List SysLabel :=
  opened ++ [join "ann"] ++ calls 1 12 200 ++ [start] ++ calls 2 8 300 ++ [join "bob"] ++ calls 3 3 400

def overtaken : List SysLabel :=
  opened ++ [join "ann"] ++ calls 1 2 200 ++ [start] ++ calls 2 8 300 ++ calls 1 10 202

end Demo

theorem no_join_after_start_in_turn : ∃ S : SysState,
    S.shared.log = [.joined "R2D2C3", .wroteLobby "R2D2C3", .started "R2D2C3", .wroteRunning "R2D2C3"] ∧
    S.shared.log.Pairwise fun a b => a.precludes b = false := by
  have hRun : ((lobby Demo.outside).runWhile startsAlone (initial [⟨5, 7, true⟩]) Demo.inTurn).any
      (fun S => S.shared.log =
        [.joined "R2D2C3", .wroteLobby "R2D2C3", .started "R2D2C3", .wroteRunning "R2D2C3"]) = true := by
    decide +kernel
  obtain ⟨S, hReach, hS⟩ := Machine.Reach.exists_of_runWhile hRun
  exact ⟨S, of_decide_eq_true hS, no_join_after_start hReach⟩

/-- Ann is committed after the start, and sets the running snapshot back to the lobby. -/
theorem late_join : ∃ S : SysState,
    (lobby Demo.outside).Reach (fun _ _ => True) (initial [⟨5, 7, true⟩]) S ∧
    S.shared.log = [.started "R2D2C3", .wroteRunning "R2D2C3", .joined "R2D2C3", .wroteLobby "R2D2C3"] ∧
    ¬ S.shared.log.Pairwise fun a b => a.precludes b = false := by
  have hRun : ((lobby Demo.outside).run (initial [⟨5, 7, true⟩]) Demo.overtaken).any (fun S =>
      S.shared.log =
        [.started "R2D2C3", .wroteRunning "R2D2C3", .joined "R2D2C3", .wroteLobby "R2D2C3"]) = true := by
    decide +kernel
  obtain ⟨S, hReach, hS⟩ := Machine.Reach.exists_of_run hRun
  have hLog := of_decide_eq_true hS
  refine ⟨S, hReach, hLog, ?_⟩
  rw [hLog]
  decide

end LiveQuiz.Lobby
