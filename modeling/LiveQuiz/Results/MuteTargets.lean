import LiveQuiz.Lib.History
import LiveQuiz.Results.DecidedOnce
import LiveQuiz.Rooms.Service

/-! # Whom a mute hits

The report of a flagged nickname names the room and the user of the participant, not the
participant. The mute kicks whoever of them is active when the decision reads the rows;
for a guest that is the whole room.
-/

namespace LiveQuiz.Moderation

open Coroutine

set_option autoImplicit false

/-- The report has the room and the user that `auto_flag_on_join` writes for the participant. -/
def RaisedFor (report : Report) (p : Participant) : Prop :=
  ∃ (i : Id) (room : Rooms.Room) (flag : Rooms.Flag), room.id = p.roomId ∧
    report.roomId = (Rooms.reportOf i room p.userId flag).roomId ∧
    report.targetUserId = (Rooms.reportOf i room p.userId flag).targetUserId

/-- Whatever the tables are, the statements leave every participant but `p` as it is. -/
def SparesOthers (ws : List Write) (p : Participant) : Prop :=
  ∀ w : World, ∀ q ∈ w.participants, q.id ≠ p.id →
    q ∈ (Transactions.applyAll Write.apply ws w).participants

abbrev Selection := Nat → Option (List Participant)

def selecting (sel : Selection) (pid : Nat) (o : Op) (w : World) : Selection :=
  match o with
  | .activeRows r u => Function.update sel pid (some (w.active r u))
  | _ => sel

def selective : Machine (World × Selection) Op Op.Res Exn ModerationStatus Job Decision EnvAction :=
  moderation.noting selecting

def Selected (sel : Option (List Participant)) (ws : List Write) : Prop :=
  ∀ ids, .kick ids ∈ ws → ∃ rows, sel = some rows ∧ ids = rows.map (·.id)

def SameScope (r r' : Report) : Prop :=
  r'.id = r.id ∧ r'.roomId = r.roomId ∧ r'.targetUserId = r.targetUserId

namespace Mute

structure Inv (n : Nat) (s : World × Selection) : Prop where
  idle : ∀ q, n ≤ q → s.1.tx q = [] ∧ s.2 q = none
  entries : ∀ e ∈ s.1.log, Selected (s.2 e.pid) e.writes

structure Rely (pid : Nat) (s v : World × Selection) : Prop where
  tx : v.1.tx pid = s.1.tx pid
  selection : v.2 pid = s.2 pid
  reports : ∀ r ∈ s.1.reports, ∃ r' ∈ v.1.reports, SameScope r r'

def Req (pid : Nat) (job : Job) (s : World × Selection) : Op → Prop
  | .activeRows r u => s.2 pid = none ∧
    ∃ report ∈ s.1.reports, report.id = job.report ∧ report.roomId = r ∧ report.targetUserId = u
  | .commit => Selected (s.2 pid) (s.1.tx pid)
  | _ => True

def contract : Contract (World × Selection) Op Exn ModerationStatus Job where
  inv := Inv
  rely := Rely
  req := Req
  post _ _ _ _ := True

section

variable {s v : World × Selection} {w : World} {job : Job} {pid n : Nat} {o : Op} {d : Decision}

theorem Rely.refl (pid : Nat) (s : World × Selection) : Rely pid s s :=
  ⟨rfl, rfl, fun r hr => ⟨r, hr, rfl, rfl, rfl⟩⟩

theorem Rely.trans {u : World × Selection} (h : Rely pid s v) (h' : Rely pid v u) : Rely pid s u := by
  refine ⟨h'.tx.trans h.tx, h'.selection.trans h.selection, fun r hr => ?_⟩
  obtain ⟨r₁, hr₁, hId₁, hRoom₁, hUser₁⟩ := h.reports r hr
  obtain ⟨r₂, hr₂, hId₂, hRoom₂, hUser₂⟩ := h'.reports r₁ hr₁
  exact ⟨r₂, hr₂, hId₂.trans hId₁, hRoom₂.trans hRoom₁, hUser₂.trans hUser₁⟩

theorem scope_apply (wr : Write) {w : World} {r : Report} (hr : r ∈ w.reports) :
    ∃ r' ∈ (wr.apply w).reports, SameScope r r' := by
  cases wr with
  | review i status reviewer at' =>
    refine ⟨_, List.mem_map_of_mem hr, ?_⟩
    split <;> exact ⟨rfl, rfl, rfl⟩
  | _ => exact ⟨r, hr, rfl, rfl, rfl⟩

theorem scope_commit (w : World) (job : Job) (pid : Nat) {r : Report} (hr : r ∈ w.reports) :
    ∃ r' ∈ (w.commit job pid).reports, SameScope r r' := by
  refine Transactions.applyAll_keeps (P := fun v : World => ∃ r' ∈ v.reports, SameScope r r')
    (fun wr _ v hv => ?_) ⟨r, hr, rfl, rfl, rfl⟩
  obtain ⟨r₁, hr₁, hId₁, hRoom₁, hUser₁⟩ := hv
  obtain ⟨r₂, hr₂, hId₂, hRoom₂, hUser₂⟩ := scope_apply wr hr₁
  exact ⟨r₂, hr₂, hId₂.trans hId₁, hRoom₂.trans hRoom₁, hUser₂.trans hUser₁⟩

theorem selecting_other (sel : Selection) (o : Op) (w : World) {q : Nat} (hq : q ≠ pid) :
    selecting sel pid o w q = sel q := by
  cases o with
  | activeRows r u => exact Function.update_of_ne hq _ _
  | _ => rfl

theorem exec_tables {out : Answer o} (h : exec w job pid n o d = some out) :
    out.spawned = none ∧ (∀ q, q ≠ pid → out.shared.tx q = w.tx q) ∧
    (out.shared.reports = w.reports ∧ out.shared.log = w.log ∨
      o = .commit ∧ out.shared = w.commit job pid) := by
  refine ⟨faulty_spawned h fun a => perform_spawned, ?_⟩
  obtain hEq | ⟨a, ha, -, hEq⟩ := faulty_shared h
  · rw [hEq]
    exact ⟨fun _ _ => rfl, .inl ⟨rfl, rfl⟩⟩
  · rw [hEq]
    obtain ⟨hOthers, hRows⟩ := perform_cases ha
    refine ⟨fun q hq => (hOthers q hq).1, ?_⟩
    obtain hSame | ⟨rfl, -⟩ := hRows
    · exact .inl ⟨hSame.reports, hSame.log⟩
    · cases ha
      exact .inr ⟨rfl, rfl⟩

theorem exec_keeping {out : Outcome (World × Selection) Job (Except Exn o.Res)} (hInv : Inv n s)
    (hReq : Req pid job s o) (hPid : pid < n) (h : selective.exec s job pid n o d = some out) :
    out.spawned = none ∧ Inv n out.shared ∧ ∀ q, q ≠ pid → Rely q s out.shared := by
  obtain ⟨hSel, hExec⟩ := noting_exec h
  obtain ⟨hNone, hOthers, hTables⟩ := exec_tables (n := n) hExec
  dsimp only at hNone hOthers hTables
  have hSelected : ∀ e ∈ s.1.log, Selected (out.shared.2 e.pid) e.writes := by
    intro e he ids hKick
    rw [hSel]
    by_cases hq : e.pid = pid
    · cases o with
      | activeRows r u =>
        obtain ⟨rows, hSome, -⟩ := hInv.entries e he ids hKick
        rw [hq, hReq.1] at hSome
        cases hSome
      | _ => exact hInv.entries e he ids hKick
    · rw [selecting_other _ _ _ hq]
      exact hInv.entries e he ids hKick
  refine ⟨hNone, ⟨fun q hq => ?_, ?_⟩, fun q hq => ⟨?_, ?_, ?_⟩⟩
  · have hNe : q ≠ pid := by omega
    rw [hOthers q hNe, hSel, selecting_other _ _ _ hNe]
    exact hInv.idle q hq
  · obtain ⟨-, hLog⟩ | ⟨rfl, hCommit⟩ := hTables
    · rw [hLog]
      exact hSelected
    · intro e he
      rw [hCommit] at he
      obtain hOld | hNew := List.mem_append.mp he
      · exact hSelected e hOld
      · rw [List.mem_singleton.mp hNew, hSel]
        exact hReq
  · exact hOthers q hq
  · rw [hSel, selecting_other _ _ _ hq]
  · obtain ⟨hReports, -⟩ | ⟨-, hCommit⟩ := hTables
    · rw [hReports]
      exact fun r hr => ⟨r, hr, rfl, rfl, rfl⟩
    · rw [hCommit]
      exact fun r hr => scope_commit s.1 job pid hr

theorem env_keeping {e : EnvAction} {res : (World × Selection) × Option Job} (hInv : Inv n s)
    (h : selective.env s n e = some res) : Inv n res.1 ∧ ∀ q, Rely q s res.1 := by
  obtain ⟨⟨w', sel⟩, t⟩ := res
  obtain ⟨hSel, hEnv⟩ := noting_env h
  obtain rfl : sel = s.2 := hSel
  change env s.1 n e = some (w', t) at hEnv
  have hSame : w'.tx = s.1.tx → w'.log = s.1.log → (∀ r ∈ s.1.reports, r ∈ w'.reports) →
      Inv n (w', s.2) ∧ ∀ q, Rely q s (w', s.2) := by
    intro hTx hLog hReports
    refine ⟨⟨?_, ?_⟩, fun q => ⟨congrFun hTx q, rfl, fun r hr => ⟨r, hReports r hr, rfl, rfl, rfl⟩⟩⟩
    · rw [hTx]
      exact hInv.idle
    · rw [hLog]
      exact hInv.entries
  cases e with
  | addReport i room user quiz =>
    simp only [env] at hEnv
    split at hEnv
    · cases hEnv
    · cases hEnv
      exact hSame rfl rfl fun r hr => List.mem_append_left _ hr
  | _ =>
    cases hEnv
    exact hSame rfl rfl fun r hr => hr

end

section

variable {α : Type} {s : World × Selection} {job : Job} {pid : Nat} {report : Report}
  {sel : Option (List Participant)} {ws : List Write} {Q : Except Exn α → World × Selection → Prop}

/-- The program has read the report; what it has selected and its statements so far. -/
structure Doing (pid : Nat) (report : Report) (sel : Option (List Participant)) (ws : List Write)
    (s : World × Selection) : Prop where
  tx : s.1.tx pid = ws
  selection : s.2 pid = sel
  row : ∃ r ∈ s.1.reports, SameScope report r

theorem Doing.rely {v : World × Selection} (h : Doing pid report sel ws s) (hRely : Rely pid s v) :
    Doing pid report sel ws v := by
  obtain ⟨r, hr, hId, hRoom, hUser⟩ := h.row
  obtain ⟨r', hr', hId', hRoom', hUser'⟩ := hRely.reports r hr
  exact ⟨hRely.tx.trans h.tx, hRely.selection.trans h.selection,
    ⟨r', hr', hId'.trans hId, hRoom'.trans hRoom, hUser'.trans hUser⟩⟩

abbrev Walk (pid : Nat) (job : Job) (p : Coro α) (Q : Except Exn α → World × Selection → Prop)
    (s : World × Selection) : Prop := wp selective contract pid job p Q s

theorem walk_call {o : Op} {f : o.Res → Coro α} (hErr : ∀ e v, Q (.error e) v)
    (h : ∀ s₁, Rely pid s s₁ → Req pid job s₁ o ∧ ∀ d out a, perform s₁.1 job pid o d = some out →
      out.result = .ok a → Walk pid job (f a) Q (out.shared, selecting s₁.2 pid o s₁.1)) :
    Walk pid job (ask o >>= f) Q s := by
  intro s₁ fresh _ hRely _
  obtain ⟨hReq, hNext⟩ := h s₁ hRely
  refine ⟨hReq, fun d out hExec => ?_⟩
  obtain ⟨⟨w, sel⟩, result, spawned⟩ := out
  obtain ⟨rfl, hBase⟩ := noting_exec hExec
  cases result with
  | ok a => exact hNext d _ a (faulty_ok hBase rfl).2 rfl
  | error e => exact hErr e _

theorem walk_quiet {o : Op} {f : o.Res → Coro α} (hErr : ∀ e v, Q (.error e) v)
    (ho : o.quiet = true) (hRows : ∀ r u, o ≠ .activeRows r u) (h : Doing pid report sel ws s)
    (hNext : ∀ a v, Doing pid report sel ws v → Walk pid job (f a) Q v) :
    Walk pid job (ask o >>= f) Q s := by
  refine walk_call hErr fun s₁ hRely => ⟨?_, fun d out a hOk _ => ?_⟩
  · cases o with
    | activeRows r u => exact absurd rfl (hRows r u)
    | commit => cases ho
    | _ => trivial
  · have hSel : selecting s₁.2 pid o s₁.1 = s₁.2 := by
      cases o with
      | activeRows r u => exact absurd rfl (hRows r u)
      | _ => rfl
    rw [perform_quiet ho hOk, hSel]
    exact hNext a s₁ (h.rely hRely)

theorem walk_flush {ws' : List Write} {Q : Except Exn Unit → World × Selection → Prop}
    (hErr : ∀ e v, Q (.error e) v) (h : Doing pid report sel ws s)
    (hNext : ∀ v, Doing pid report sel (ws ++ ws') v → Q (.ok ()) v) :
    Walk pid job (ask (.flush ws')) Q s := by
  refine wp_perform fun s₁ fresh _ hRely _ => ⟨trivial, fun d out hExec => ?_⟩
  have hDoing := h.rely hRely
  obtain ⟨⟨w, sel'⟩, result, spawned⟩ := out
  obtain ⟨rfl, hBase⟩ := noting_exec hExec
  cases result with
  | error e => exact hErr e _
  | ok a =>
    obtain hEq | ⟨-, hRows, hTx, -⟩ := perform_flush (faulty_ok hBase rfl).2
    · cases hEq
    refine hNext _ ⟨?_, hDoing.selection, ?_⟩
    · dsimp only at hTx ⊢
      rw [hTx, Function.update_self, hDoing.tx]
    · rw [hRows.reports]
      exact hDoing.row

theorem selected_snoc {wr : Write} (h : Selected sel ws) (hwr : ∀ ids, wr ≠ .kick ids) :
    Selected sel (ws ++ [wr]) := by
  intro ids hKick
  obtain hOld | hNew := List.mem_append.mp hKick
  · exact h ids hOld
  · exact absurd (List.mem_singleton.mp hNew).symm (hwr ids)

theorem selected_nil (sel : Option (List Participant)) : Selected sel [] := fun _ h => by cases h

theorem selected_one {wr : Write} (hwr : ∀ ids, wr ≠ .kick ids) : Selected sel [wr] :=
  selected_snoc (selected_nil sel) hwr

theorem walk_applyDecision {decision : DecisionKind} {f : Change → Coro α}
    (hErr : ∀ e v, Q (.error e) v) (h : Doing pid report none [] s) (hJob : report.id = job.report)
    (hNext : ∀ change sel ws v, Selected sel ws → Doing pid report sel ws v →
      Walk pid job (f change) Q v) :
    Walk pid job (applyDecision report decision >>= f) Q s := by
  cases decision with
  | dismiss => exact hNext _ none [] s (selected_nil _) h
  | hide =>
    refine wp_bind ?_
    unfold applyDecision applyHide
    cases report.targetQuizSetId with
    | none => exact hErr _ _
    | some quizId =>
      refine walk_quiet (fun e v => hErr e v) rfl (fun r u => by simp) h fun row v hDoing => ?_
      cases row with
      | none => exact hErr _ _
      | some quiz =>
        refine wp_bind (walk_flush (fun e v => hErr e v) hDoing fun u hDone => ?_)
        exact hNext _ _ _ u (selected_one fun ids => by simp) hDone
  | mute =>
    refine wp_bind ?_
    change Walk pid job (applyMute report) _ s
    unfold applyMute
    split
    · exact hErr _ _
    refine walk_call (fun e v => hErr e v) fun s₁ hRely => ?_
    have hDoing := h.rely hRely
    obtain ⟨r, hr, hId, hRoom, hUser⟩ := hDoing.row
    refine ⟨⟨hDoing.selection, r, hr, hId.trans hJob, hRoom, hUser⟩, fun d out rows hOk hRows => ?_⟩
    cases hOk
    obtain rfl : s₁.1.active report.roomId report.targetUserId = rows := Except.ok.inj hRows
    have hChosen : Doing pid report (some (s₁.1.active report.roomId report.targetUserId)) []
        (s₁.1, selecting s₁.2 pid (.activeRows report.roomId report.targetUserId) s₁.1) :=
      ⟨hDoing.tx, Function.update_self _ _ _, hDoing.row⟩
    refine wp_bind (walk_flush (fun e v => hErr e v) hChosen fun u hDone => ?_)
    refine hNext _ _ _ u (fun ids hKick => ⟨_, rfl, ?_⟩) hDone
    rw [List.nil_append, List.mem_singleton, Write.kick.injEq] at hKick
    exact hKick
  | ban =>
    refine wp_bind ?_
    unfold applyDecision applyBan
    cases report.targetUserId with
    | none => exact hErr _ _
    | some userId =>
      refine walk_quiet (fun e v => hErr e v) rfl (fun r u => by simp) h fun row v hDoing => ?_
      cases row with
      | none => exact hErr _ _
      | some user =>
        refine wp_bind (walk_flush (fun e v => hErr e v) hDoing fun u hDone => ?_)
        exact hNext _ _ _ u (selected_one fun ids => by simp) hDone

theorem walk_record {m : Id} {decision : DecisionKind} {reason : Option String} {change : Change}
    {f : Unit → Coro α} (hErr : ∀ e v, Q (.error e) v) (hSel : Selected sel ws)
    (h : Doing pid report sel ws s)
    (hNext : ∀ ws v, Selected sel ws → Doing pid report sel ws v → Walk pid job (f ()) Q v) :
    Walk pid job (record m report decision reason change >>= f) Q s := by
  refine wp_bind ?_
  refine walk_quiet (fun e v => hErr e v) rfl (fun r u => by simp) h fun now v₁ h₁ => ?_
  refine wp_bind (walk_flush (fun e v => hErr e v) h₁ fun v₂ h₂ => ?_)
  refine walk_quiet (fun e v => hErr e v) rfl (fun r u => by simp) h₂ fun auditId v₃ h₃ => ?_
  refine wp_bind (walk_flush (fun e v => hErr e v) h₃ fun v₄ h₄ => ?_)
  refine walk_quiet (fun e v => hErr e v) rfl (fun r u => by simp) h₄ fun eventId v₅ h₅ => ?_
  refine walk_quiet (fun e v => hErr e v) rfl (fun r u => by simp) h₅ fun occurredAt v₆ h₆ => ?_
  refine walk_flush (fun e v => hErr e v) h₆ fun v₇ h₇ => hNext _ v₇ ?_ h₇
  apply selected_snoc (selected_snoc (selected_snoc hSel ?_) ?_) ?_ <;> simp

theorem walk_broadcastKicks {i : Id} {targets : List (String × Id)}
    {Q : Except Exn Unit → World × Selection → Prop} (hQ : ∀ r v, Q r v) :
    Walk pid job (broadcastKicks i targets) Q s := by
  induction targets generalizing s with
  | nil => exact hQ _ s
  | cons target rest ih =>
    refine walk_call (fun e v => hQ _ v) fun s₁ _ => ⟨trivial, fun d out a _ _ => ?_⟩
    refine wp_bind (wp_handle (wp_perform fun s₂ fresh _ _ _ => ⟨trivial, fun d out _ => ?_⟩))
    cases out.result with
    | ok u => exact ih
    | error e => exact ih

end

theorem walk_decide {s : World × Selection} {pid : Nat} (hTx : s.1.tx pid = []) (hSel : s.2 pid = none)
    (job : Job) : Walk pid job (selective.body job) (fun _ _ => True) s := by
  obtain ⟨m, i, decision, reason⟩ := job
  have hErr : ∀ (e : Exn) (v : World × Selection), True := fun _ _ => trivial
  refine wp_handle (wp_mono (Q := fun _ _ => True) ?_ fun r v _ => ?_)
  · refine walk_call hErr fun s₁ h₁ => ⟨trivial, fun d out row hOk hRow => ?_⟩
    cases hOk
    cases row with
    | none => trivial
    | some report =>
      have hFind : s₁.1.reports.find? (·.id = i) = some report := Except.ok.inj hRow
      have hId : report.id = i := by simpa using List.find?_some hFind
      dsimp only
      split
      · trivial
      obtain ⟨hRows, hTx', -⟩ := hold_eq s₁.1 pid (s₁.1.reports.find? (·.id = i))
      have hDoing : Doing pid report none []
          (s₁.1.hold pid (s₁.1.reports.find? (·.id = i)), s₁.2) := by
        refine ⟨?_, h₁.selection.trans hSel, report, ?_, rfl, rfl, rfl⟩
        · dsimp only
          rw [hTx']
          exact h₁.tx.trans hTx
        · dsimp only
          rw [hRows.reports]
          exact List.mem_of_find?_eq_some hFind
      refine walk_applyDecision hErr hDoing hId fun change sel ws v₁ hSelected hDone => ?_
      refine walk_record hErr hSelected hDone fun ws' v₂ hSelected' hDone' => ?_
      refine walk_call hErr fun v₃ h₃ => ⟨?_, fun d out a _ _ => ?_⟩
      · have hAll := hDone'.rely h₃
        change Selected (v₃.2 pid) (v₃.1.tx pid)
        rw [hAll.tx, hAll.selection]
        exact hSelected'
      · refine wp_bind (walk_broadcastKicks fun r v => ?_)
        cases r <;> trivial
  · cases r with
    | ok a => trivial
    | error e => exact walk_call hErr fun _ _ => ⟨trivial, fun _ _ _ _ _ => trivial⟩

theorem sound : Sound selective contract where
  rely_trans _ _ _ _ h h' := Rely.trans h h'
  rely_refl := Rely.refl
  post_rely _ _ _ _ _ h _ := h
  exec s job pid n o d out hInv hReq hPid hExec := by
    obtain ⟨hNone, hInv', hRely⟩ := exec_keeping hInv hReq hPid hExec
    refine ⟨?_, fun q _ hq => hRely q hq, fun t ht => ?_⟩
    · rw [hNone]
      exact hInv'
    · rw [hNone] at ht
      cases ht
  env s n e res hInv hEnv := by
    obtain ⟨hInv', hRely⟩ := env_keeping hInv hEnv
    obtain ⟨hTx, hSel⟩ := hInv'.idle n le_rfl
    exact ⟨⟨fun q hq => hInv'.idle q (by omega), hInv'.entries⟩, fun q _ => hRely q,
      fun t _ => walk_decide hTx hSel t⟩

theorem kept_of_reach {C : SysState → SysLabel → Prop} {S : SysState} (h : moderation.Reach C initial S) :
    ∃ sel, selective.Reach (fun _ _ => True) (initial.noted fun _ => none) (S.noted sel) ∧
      Kept selective contract (S.noted sel) := by
  obtain ⟨sel, hReach⟩ := h.noted (f := selecting) fun _ => none
  refine ⟨sel, hReach, sound.kept ⟨⟨fun _ _ => ⟨rfl, rfl⟩, fun _ he => by cases he⟩, ?_⟩ hReach⟩
  exact fun _ _ hp => by cases hp

theorem selection_step {S S' : State (World × Selection) Op Op.Res Exn ModerationStatus Job}
    {l : SysLabel} {pid : Nat} {rows : List Participant} (hS : Kept selective contract S)
    (hStep : selective.step S l = some S') (h : S.shared.2 pid = some rows) :
    S'.shared.2 pid = some rows := by
  obtain ⟨q, d, t, o, k, out, rfl, hProc, hExec, rfl⟩ | ⟨e, out, rfl, hEnv, rfl⟩ :=
    Machine.step_cases hStep
  · obtain ⟨hSel, -⟩ := noting_exec hExec
    dsimp only
    rw [hSel]
    by_cases hq : pid = q
    · subst hq
      cases o with
      | activeRows r u =>
        have hFirst : S.shared.2 pid = none := (hS.req sound hProc).1
        rw [hFirst] at h
        cases h
      | _ => exact h
    · rw [selecting_other _ _ _ hq]
      exact h
  · obtain ⟨hSel, -⟩ := noting_env hEnv
    dsimp only
    rw [hSel]
    exact h

theorem selection_reach {S S' : State (World × Selection) Op Op.Res Exn ModerationStatus Job}
    {pid : Nat} {rows : List Participant} (hS : Kept selective contract S)
    (hReach : selective.Reach (fun _ _ => True) S S') (h : S.shared.2 pid = some rows) :
    S'.shared.2 pid = some rows := by
  induction hReach with
  | refl => exact h
  | tail hReach' _ hStep ih => exact selection_step (sound.kept hS hReach') hStep ih

end Mute

theorem sparesOthers_iff {ids : List Id} {i m : Id} {status : ModerationStatus} {at' : Micros}
    {a : AuditLog} {e : DecisionEvent} {p : Participant} :
    SparesOthers ([.kick ids] ++ [.review i status m at', .audit a, .event e]) p ↔
      ∀ j ∈ ids, j = p.id := by
  constructor
  · intro hSpares j hj
    by_contra hNe
    have hMem := hSpares
      { initial.shared with participants := [⟨j, 0, "", none, none, false⟩] } _
      (List.mem_singleton_self _) hNe
    simp [Write.apply, hj] at hMem
  · intro hOnly w q hq hNe
    have hNot : q.id ∉ ids := fun hIn => hNe (hOnly q.id hIn)
    simp only [List.cons_append, List.nil_append, Transactions.applyAll_cons, Transactions.applyAll_nil, Write.apply]
    refine List.mem_map.mpr ⟨q, hq, if_neg hNot⟩

/-- A committed mute leaves the others alone exactly when no other participant was active
in the room, or in the room under the same user, as the decision read the rows. -/
theorem mute_spares_others_iff {S₁ S₂ S₃ : SysState} {pid : Nat} {d : Decision} {m i : Id}
    {reason : Option String} {r u : Option Id} {ws : List Write}
    {k : Except Exn (List Participant) → Coro ModerationStatus}
    (hReach : moderation.Reach (fun _ _ => True) initial S₁)
    (hProc : S₁.procs[pid]? = some ⟨.decide m i .mute reason, .call (.activeRows r u) k⟩)
    (hStep : moderation.step S₁ (.op pid d) = some S₂)
    (hRest : moderation.Reach (fun _ _ => True) S₂ S₃)
    (hDone : ⟨pid, .decide m i .mute reason, ws⟩ ∈ S₃.shared.log)
    {report : Report} (hReport : report ∈ S₁.shared.reports) (hId : report.id = i)
    {p : Participant} (hRaised : RaisedFor report p) :
    SparesOthers ws p ↔ ∀ q ∈ S₁.shared.participants, q.leftAt = none → q.isKicked = false →
      q.roomId = p.roomId → (p.userId = none ∨ q.userId = p.userId) → q.id = p.id := by
  obtain ⟨sel, hNoted, hKept⟩ := Mute.kept_of_reach hReach
  obtain ⟨-, report', hReport', hId', hRoom, hUser⟩ :
      sel pid = none ∧ ∃ report' ∈ S₁.shared.reports, report'.id = i ∧ report'.roomId = r ∧
        report'.targetUserId = u := hKept.req Mute.sound hProc
  obtain rfl := report_unique (kept_of_reach hReach).inv hReport hReport' (hId.trans hId'.symm)
  obtain ⟨_, room, flag, hOwn, hRoomId, hUserId⟩ := hRaised
  obtain rfl : some p.roomId = r := by
    rw [← hRoom, hRoomId, ← hOwn]
    rfl
  obtain rfl : p.userId = u := hUserId.symm.trans hUser
  have hStep' := step_noted (f := selecting) (h := sel) hStep
  have hKept' := Mute.sound.kept_step hKept hStep'
  have hSelected : (noted selecting S₁ sel (.op pid d : SysLabel)) pid =
      some (S₁.shared.active (some p.roomId) p.userId) := by
    simp only [noted, hProc]
    exact Function.update_self _ _ _
  obtain ⟨sel', hReach'⟩ := hRest.noted (f := selecting) (noted selecting S₁ sel (.op pid d : SysLabel))
  have hSel' : sel' pid = some (S₁.shared.active (some p.roomId) p.userId) :=
    Mute.selection_reach hKept' hReach' hSelected
  obtain ⟨_, _, _, hShape⟩ :=
    (kept_of_reach ((hReach.tail trivial hStep).trans hRest)).inv.shapes _ hDone
  obtain ⟨acts, at', a, e, hWrites, ⟨ids, rfl⟩, -, -⟩ := hShape
  obtain rfl : ws = _ := hWrites
  obtain ⟨rows, hRows, rfl⟩ := (Mute.sound.kept hKept' hReach').inv.entries _ hDone ids
    (List.mem_append_left _ (List.mem_singleton_self _))
  obtain rfl : S₁.shared.active (some p.roomId) p.userId = rows :=
    Option.some.inj (hSel'.symm.trans hRows)
  rw [sparesOthers_iff]
  constructor
  · intro h q hq hHere hIn hSame hWho
    refine h q.id (List.mem_map_of_mem (List.mem_filter.mpr ⟨hq, ?_⟩))
    have hUser : p.userId.all (q.userId = some ·) = true := by
      obtain hGuest | hWho := hWho
      · rw [hGuest]
        rfl
      · rw [hWho]
        cases p.userId <;> simp
    simp [hHere, hIn, hSame, hUser]
  · intro h j hj
    obtain ⟨q, hq, rfl⟩ := List.mem_map.mp hj
    obtain ⟨hIn, hActive⟩ := List.mem_filter.mp hq
    obtain ⟨hHere, hNot, hSame, hWho⟩ := of_decide_eq_true hActive
    refine h q hIn (Option.isNone_iff_eq_none.mp hHere) hNot (of_decide_eq_true hSame).symm ?_
    cases hUser' : p.userId with
    | none => exact .inl rfl
    | some u =>
      rw [hUser'] at hWho
      exact .inr (of_decide_eq_true hWho)

def pendingCall (S : SysState) (pid : Nat) : Option (Job × Op) :=
  match S.procs[pid]? with
  | some ⟨t, .call o _⟩ => some (t, o)
  | _ => none

theorem pendingCall_some {S : SysState} {pid : Nat} {t : Job} {o : Op}
    (h : pendingCall S pid = some (t, o)) : ∃ k, S.procs[pid]? = some ⟨t, .call o k⟩ := by
  unfold pendingCall at h
  split at h
  · cases h
    exact ⟨_, by assumption⟩
  · cases h

namespace Demo

/-- Room 1 has the participants 21 and 22; report 5 is about the nickname of 21. -/
def flagged (user other : Option Id) : List SysLabel :=
  [.env (.putParticipants [⟨21, 1, "ABC234", user, none, false⟩, ⟨22, 1, "ABC234", other, none, false⟩]),
    .env (.addReport 5 (some 1) user none), .env (.request (.decide 3 5 .mute none))]

end Demo

/-- The nickname of a registered player; the other is a guest. -/
theorem mute_spares_others_registered :
    ∃ ws : List Write, ws ≠ [] ∧ SparesOthers ws ⟨21, 1, "ABC234", some 8, none, false⟩ := by
  have hRun : (moderation.run initial (Demo.flagged (some 8) none ++ Demo.calls 0 1 0)).any (fun S₁ =>
      pendingCall S₁ 0 = some (.decide 3 5 .mute none, .activeRows (some 1) (some 8)) ∧
      S₁.shared.reports = [⟨5, some 1, some 8, none, .pending, none, none⟩] ∧
      S₁.shared.participants =
        [⟨21, 1, "ABC234", some 8, none, false⟩, ⟨22, 1, "ABC234", none, none, false⟩] ∧
      (moderation.step S₁ (.op 0 {})).any fun S₂ =>
        (moderation.run S₂ (Demo.calls 0 9 100)).any fun S₃ =>
          S₃.shared.log.any fun e => e.pid = 0 ∧ e.job = .decide 3 5 .mute none ∧ e.writes ≠ []) = true := by
    decide +kernel
  obtain ⟨S₁, hReach, hS₁⟩ := Machine.Reach.exists_of_run hRun
  obtain ⟨hCall, hReports, hRows, hStep⟩ := of_decide_eq_true hS₁
  obtain ⟨k, hProc⟩ := pendingCall_some hCall
  obtain ⟨S₂, hStep, hRun₂⟩ := (Option.any_eq_true _ _).mp hStep
  obtain ⟨S₃, hRest, hLog⟩ := Machine.Reach.exists_of_run hRun₂
  obtain ⟨⟨pid, job, ws⟩, hDone, hEntry⟩ := List.any_eq_true.mp hLog
  obtain ⟨rfl, rfl, hSome⟩ := of_decide_eq_true hEntry
  have hReport : (⟨5, some 1, some 8, none, .pending, none, none⟩ : Report) ∈ S₁.shared.reports := by
    rw [hReports]
    exact List.mem_singleton_self _
  have hRaised : RaisedFor ⟨5, some 1, some 8, none, .pending, none, none⟩
      ⟨21, 1, "ABC234", some 8, none, false⟩ :=
    ⟨5, ⟨1, "ABC234", 3, 4, .lobby, 50, []⟩, ⟨"profanity", "x", []⟩, rfl, rfl, rfl⟩
  refine ⟨ws, hSome, (mute_spares_others_iff hReach hProc hStep hRest hDone hReport rfl hRaised).mpr ?_⟩
  rw [hRows]
  decide

/-- Two guests: the mute of one kicks both. -/
theorem guest_mute_empties_room : ∃ S₁ S : SysState,
    moderation.Reach (fun _ _ => True) initial S₁ ∧ moderation.Reach (fun _ _ => True) S₁ S ∧
    RaisedFor ⟨5, some 1, none, none, .pending, none, none⟩ ⟨21, 1, "ABC234", none, none, false⟩ ∧
    S₁.shared.reports = [⟨5, some 1, none, none, .pending, none, none⟩] ∧
    S₁.shared.participants =
      [⟨21, 1, "ABC234", none, none, false⟩, ⟨22, 1, "ABC234", none, none, false⟩] ∧
    outcome S 0 = some (.decide 3 5 .mute none, some .actionTaken) ∧
    S.shared.participants =
      [⟨21, 1, "ABC234", none, none, true⟩, ⟨22, 1, "ABC234", none, none, true⟩] := by
  have hRun : (moderation.run initial (Demo.flagged none none)).any (fun S₁ =>
      S₁.shared.reports = [⟨5, some 1, none, none, .pending, none, none⟩] ∧
      S₁.shared.participants =
        [⟨21, 1, "ABC234", none, none, false⟩, ⟨22, 1, "ABC234", none, none, false⟩] ∧
      (moderation.run S₁ (Demo.calls 0 15 100)).any fun S =>
        outcome S 0 = some (.decide 3 5 .mute none, some .actionTaken) ∧
        S.shared.participants =
          [⟨21, 1, "ABC234", none, none, true⟩, ⟨22, 1, "ABC234", none, none, true⟩]) = true := by
    decide +kernel
  obtain ⟨S₁, hReach, hS₁⟩ := Machine.Reach.exists_of_run hRun
  obtain ⟨hReports, hRows, hRun₂⟩ := of_decide_eq_true hS₁
  obtain ⟨S, hRest, hS⟩ := Machine.Reach.exists_of_run hRun₂
  obtain ⟨hOutcome, hKicked⟩ := of_decide_eq_true hS
  refine ⟨S₁, S, hReach, hRest, ?_, hReports, hRows, hOutcome, hKicked⟩
  exact ⟨5, ⟨1, "ABC234", 3, 4, .lobby, 50, []⟩, ⟨"profanity", "x", []⟩, rfl, rfl, rfl⟩

end LiveQuiz.Moderation
