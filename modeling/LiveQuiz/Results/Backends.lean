import Mathlib
import LiveQuiz.Lib.Grouping
import LiveQuiz.Results.Standings
import LiveQuiz.Service.Leaderboard

/-! # Three leaderboards of one match

The sorted set breaks ties by the member string, the aggregation by the exact average
response time, the final scores by the truncated one and then by the order in which the
answers happen to be read. So the three agree exactly when no two participants who have
answered leave the choice to these rules.
-/

namespace LiveQuiz

open Grouping

set_option autoImplicit false

def answered (subs : List AnswerSubmission) (participantId : Id) : Bool :=
  subs.any (·.participantId = participantId)

/-- `int(rt_sum / rt_count)` over all answers of the participant. -/
def truncatedAverage (participantId : Id) (subs : List AnswerSubmission) : Int :=
  let own := subs.filter (·.participantId = participantId)
  (own.map AnswerSubmission.responseTimeMs).sum.tdiv own.length

/-- The match is live, and these are its committed answers. -/
structure Live (db : Db) (matchId : Id) (subs : List AnswerSubmission) : Prop where
  row : ∃ m, db.matches'.find? (·.id = matchId) = some m ∧ m.status ≠ .completed
  rows : (db.submissionsOf matchId).Perm subs

/-- The increments of these answers have run, in some order. -/
def Incremented (r : Redis) (matchId : Id) (subs : List AnswerSubmission) : Prop :=
  ∃ order : List AnswerSubmission, order.Perm subs ∧
    r.leaderboard matchId = order.foldl (fun z s => zincrby z s.participantId s.scoreAwarded) []

/-- `end_match` has completed the match with these answers and these participants. -/
structure Finished (db : Db) (matchId : Id) (subs : List AnswerSubmission)
    (participants : List RoomParticipant) : Prop where
  row : ∃ m, db.matches'.find? (·.id = matchId) = some m ∧ m.status = .completed
  rows : (db.submissionsOf matchId).Perm subs
  scores : db.scoresOf matchId =
    finalScores matchId (perParticipant (db.submissionsOf matchId) participants)

def LeaderboardResponse.rows (a : LeaderboardResponse) : List (Id × Int) :=
  a.entries.map fun e => (e.participantId, e.score)

/-- Whatever the states and the limit, the three reads give the same rows for those who
have answered. -/
def BackendsAgree (matchId : Id) (subs : List AnswerSubmission) (participants : List RoomParticipant) :
    Prop :=
  ∀ (live final : Db) (r : Redis) (plan : List Id) (limit : Nat), Live live matchId subs →
    Incremented r matchId subs → Finished final matchId subs participants → 0 < limit →
    ∃ a b c, readLeaderboard .redis plan live r matchId limit = .ok a ∧
      readLeaderboard .pg plan live r matchId limit = .ok b ∧
      (∀ backend, readLeaderboard backend plan final r matchId limit = .ok c) ∧
      a.rows = b.rows ∧ a.rows = c.rows.filter fun x => answered subs x.1

/-- Of two who have answered with equal totals, the one with the greater string has the
smaller truncated average. -/
def TiesAgree (subs : List AnswerSubmission) : Prop :=
  ∀ p q, answered subs p → answered subs q → totalScore p subs = totalScore q subs →
    toString q < toString p → truncatedAverage p subs < truncatedAverage q subs

/-- Nobody without an answer ranks before someone who has answered. -/
def SilentLast (subs : List AnswerSubmission) (participants : List RoomParticipant) : Prop :=
  (∃ u ∈ participants, answered subs u.id = false) → ∀ p, answered subs p →
    0 < totalScore p subs ∨ (totalScore p subs = 0 ∧ truncatedAverage p subs ≤ 10 ^ 9)

section

variable {subs subs' : List AnswerSubmission} {p q : Id}

def seen (subs : List AnswerSubmission) : List Id := (subs.map (·.participantId)).eraseDups

theorem mem_seen : p ∈ seen subs ↔ answered subs p = true := by
  simp [seen, answered]

theorem seen_perm (h : subs.Perm subs') : (seen subs).Perm (seen subs') :=
  eraseDups_perm (h.map _)

theorem totalScore_perm (h : subs.Perm subs') : totalScore p subs = totalScore p subs' :=
  ((h.filter _).map _).sum_eq

theorem truncatedAverage_perm (h : subs.Perm subs') :
    truncatedAverage p subs = truncatedAverage p subs' := by
  unfold truncatedAverage
  simp only [((h.filter _).map _).sum_eq, (h.filter _).length_eq]

theorem answered_perm (h : subs.Perm subs') : answered subs p = answered subs' p := by
  rw [Bool.eq_iff_iff, ← mem_seen, ← mem_seen, (seen_perm h).mem_iff]

def scoreRow (subs : List AnswerSubmission) (p : Id) : Id × Int := (p, totalScore p subs)

theorem zincrby_eq_upsert (z : List (Id × Int)) (p : Id) (d : Int) :
    zincrby z p d = upsert Prod.fst (fun x => (x, 0)) p (fun x => (x.1, x.2 + d)) z := by
  unfold zincrby upsert
  simp

theorem foldl_zincrby (subs : List AnswerSubmission) :
    subs.foldl (fun z s => zincrby z s.participantId s.scoreAwarded) [] =
      (seen subs).map (scoreRow subs) := by
  simp only [zincrby_eq_upsert]
  rw [foldl_upsert (f := fun (s : AnswerSubmission) (x : Id × Int) => (x.1, x.2 + s.scoreAwarded))
    (fun _ => rfl) fun _ _ => rfl]
  refine List.map_congr_left fun p _ => ?_
  unfold group scoreRow totalScore
  generalize subs.filter (·.participantId = p) = own
  induction own using List.reverseRecOn with
  | nil => rfl
  | append_singleton own s ih => simp [ih]

/-- The entry of a participant in the dict of `end_match`. -/
def tallyOf (subs : List AnswerSubmission) (p : Id) : Tally :=
  group (fun p => { participantId := p }) AnswerSubmission.participantId (fun s t => t.add s) subs p

theorem tallySubmission_eq_upsert (ts : List Tally) (s : AnswerSubmission) :
    tallySubmission ts s =
      upsert Tally.participantId (fun p => { participantId := p }) s.participantId (·.add s) ts := by
  unfold tallySubmission setDefault upsert
  split
  next h => rfl
  next h =>
    rw [List.map_append, List.map_singleton, if_pos rfl]
    congr 1
    refine (List.map_congr_left fun t ht => ?_).trans (List.map_id ts)
    rw [if_neg fun hp => h (List.any_eq_true.mpr ⟨t, ht, decide_eq_true hp⟩)]
    rfl

theorem foldl_tallySubmission (subs : List AnswerSubmission) :
    subs.foldl tallySubmission [] = (seen subs).map (tallyOf subs) := by
  have hFun : tallySubmission = fun ts s => upsert Tally.participantId
      (fun p => { participantId := p }) s.participantId (·.add s) ts := by
    funext ts s
    exact tallySubmission_eq_upsert ts s
  rw [hFun, foldl_upsert (f := fun s t => Tally.add t s) (fun _ => rfl) fun _ _ => rfl]
  rfl

theorem tallyOf_participantId (subs : List AnswerSubmission) (p : Id) :
    (tallyOf subs p).participantId = p :=
  key_group (f := fun s t => Tally.add t s) (fun _ => rfl) (fun _ _ => rfl) subs p

theorem tallyOf_unseen (h : p ∉ seen subs) : tallyOf subs p = { participantId := p } :=
  group_unseen fun hp => h (List.mem_eraseDups.mpr hp)

theorem foldl_setDefault (ids ps : List Id) (h : ∀ p ∈ seen subs, p ∈ ids) :
    ps.foldl setDefault (ids.eraseDups.map (tallyOf subs)) =
      (ids ++ ps).eraseDups.map (tallyOf subs) := by
  induction ps generalizing ids with
  | nil => simp
  | cons p ps ih =>
    have hOne : setDefault (ids.eraseDups.map (tallyOf subs)) p =
        (ids ++ [p]).eraseDups.map (tallyOf subs) := by
      rw [eraseDups_snoc, setDefault]
      simp only [List.any_map, Function.comp_def, tallyOf_participantId, List.any_eq_true,
        List.mem_eraseDups, decide_eq_true_eq, exists_eq_right]
      split
      next hp => rfl
      next hp =>
        rw [List.map_append, List.map_singleton, tallyOf_unseen fun hSeen => hp (h p hSeen)]
    rw [List.foldl_cons, hOne, ih _ fun q hq => List.mem_append_left _ (h q hq), List.append_assoc]
    rfl

/-- The keys of the dict of `end_match`, in its order. -/
def everyone (subs : List AnswerSubmission) (participants : List RoomParticipant) : List Id :=
  (subs.map (·.participantId) ++ participants.map (·.id)).eraseDups

theorem perParticipant_eq (subs : List AnswerSubmission) (participants : List RoomParticipant) :
    perParticipant subs participants = (everyone subs participants).map (tallyOf subs) := by
  rw [perParticipant, foldl_tallySubmission]
  exact foldl_setDefault _ _ fun p hp => List.mem_eraseDups.mp hp

end

section

variable {subs scan : List AnswerSubmission} {participants : List RoomParticipant} {p q : Id}

def Above (subs : List AnswerSubmission) (p q : Id) : Prop :=
  totalScore q subs < totalScore p subs ∨
    (totalScore p subs = totalScore q subs ∧ toString q < toString p)

theorem Above.asymm (p q : Id) (h : Above subs p q) : ¬Above subs q p := by
  rintro (h' | ⟨hEq', h'⟩)
  · obtain h | ⟨hEq, -⟩ := h
    · omega
    · omega
  · obtain h | ⟨-, h⟩ := h
    · omega
    · exact lt_asymm h h'

/-- The list has those who have answered, in the order of the sorted set. -/
structure Ranking (subs : List AnswerSubmission) (ids : List Id) : Prop where
  perm : ids.Perm (seen subs)
  order : ids.Pairwise (Above subs)

theorem Ranking.eq {ids ids' : List Id} (h : Ranking subs ids) (h' : Ranking subs ids') : ids = ids' :=
  ranking_unique Above.asymm h.order h'.order (h.perm.trans h'.perm.symm)

theorem Ranking.perm_subs {ids : List Id} (h : Ranking scan ids) (hPerm : scan.Perm subs) :
    Ranking subs ids where
  perm := h.perm.trans (seen_perm hPerm)
  order := h.order.imp fun hAbove => by
    unfold Above at hAbove ⊢
    rwa [totalScore_perm hPerm, totalScore_perm hPerm] at hAbove

/-- Greater totals first, and `tie` among equal ones. -/
abbrev byTotal (subs : List AnswerSubmission) (tie : Id → Id → Prop) (p q : Id) : Prop :=
  totalScore q subs < totalScore p subs ∨ (totalScore p subs = totalScore q subs ∧ tie p q)

def redisOrder (subs : List AnswerSubmission) : List Id :=
  (seen subs).insertionSort (byTotal subs fun p q => toString q ≤ toString p)

theorem zrevrange_foldl (subs : List AnswerSubmission) (n : Nat) :
    zrevrange (subs.foldl (fun z s => zincrby z s.participantId s.scoreAwarded) []) n =
      ((redisOrder subs).take n).map (scoreRow subs) := by
  rw [foldl_zincrby, zrevrange, List.map_take]
  congr 1
  exact (List.map_insertionSort (byTotal subs fun p q => toString q ≤ toString p) _ (scoreRow subs)
    (seen subs) fun p _ q _ => Iff.rfl).symm

theorem ranking_redisOrder (subs : List AnswerSubmission) : Ranking subs (redisOrder subs) := by
  have hTotal : Std.Total (byTotal subs fun p q => toString q ≤ toString p) :=
    total_lex fun p q => le_total (toString q) (toString p)
  have hTrans : IsTrans Id (byTotal subs fun p q => toString q ≤ toString p) :=
    trans_lex fun p q x hpq hqx => hqx.trans hpq
  have hPerm : (redisOrder subs).Perm (seen subs) := List.perm_insertionSort _ _
  refine ⟨hPerm, ?_⟩
  have hNodup : (redisOrder subs).Nodup := hPerm.nodup_iff.mpr (nodup_eraseDups _)
  refine (hNodup.and (List.pairwise_insertionSort _ (seen subs))).imp ?_
  rintro p q ⟨hNe, hOrder⟩
  refine hOrder.imp_right fun ⟨hEq, hLe⟩ => ⟨hEq, lt_of_le_of_ne hLe fun h => hNe ?_⟩
  exact (Nat.repr_injective h).symm

/-- Where ties are decided by the averages, an order that no average contradicts is that of
the sorted set. -/
theorem TiesAgree.above (h : TiesAgree subs) (hp : p ∈ seen subs) (hq : q ∈ seen subs) (hNe : p ≠ q)
    (hOrder : totalScore q subs < totalScore p subs ∨ (totalScore p subs = totalScore q subs ∧
      ¬truncatedAverage q subs < truncatedAverage p subs)) : Above subs p q := by
  refine hOrder.imp_right fun ⟨hEq, hNot⟩ => ⟨hEq, ?_⟩
  have hStrings : toString p ≠ toString q := fun h => hNe (Nat.repr_injective h)
  refine (lt_or_gt_of_ne hStrings).resolve_left fun hLt => hNot ?_
  exact h q p (mem_seen.mp hq) (mem_seen.mp hp) hEq.symm hLt

def exactAverage (p : Id) (subs : List AnswerSubmission) : ℚ := (PgRow.ofGroup subs p).avgRt

theorem ediv_le_ediv {a b : Int} {m n : Nat} (hm : 0 < m) (hn : 0 < n) (h : a * n ≤ b * m) :
    a / m ≤ b / n := by
  have hm' : (0 : Int) < m := by exact_mod_cast hm
  have hn' : (0 : Int) < n := by exact_mod_cast hn
  rw [Int.le_ediv_iff_mul_le hn']
  have hFloor : a / m * m ≤ a := Int.ediv_mul_le a hm'.ne'
  refine le_of_mul_le_mul_right ?_ hm'
  calc a / m * n * m = a / m * m * n := by ring
    _ ≤ a * n := Int.mul_le_mul_of_nonneg_right hFloor hn'.le
    _ ≤ b * m := h

theorem tdiv_le_tdiv {a b : Int} {m n : Nat} (hm : 0 < m) (hn : 0 < n) (h : a * n ≤ b * m) :
    a.tdiv m ≤ b.tdiv n := by
  obtain ha | ha := le_or_gt 0 a
  · have hb : 0 ≤ b := by
      by_contra hb
      have hm' : (0 : Int) < m := by exact_mod_cast hm
      have hNeg : b * m < 0 := Int.mul_neg_of_neg_of_pos (by omega) hm'
      have hPos : 0 ≤ a * n := Int.mul_nonneg ha (by omega)
      omega
    rw [Int.tdiv_eq_ediv_of_nonneg ha, Int.tdiv_eq_ediv_of_nonneg hb]
    exact ediv_le_ediv hm hn h
  · obtain hb | hb := le_or_gt 0 b
    · have hNeg : a.tdiv m ≤ 0 := by
        rw [← Int.neg_neg a, Int.neg_tdiv]
        have := Int.tdiv_nonneg (a := -a) (b := m) (by omega) (by omega)
        omega
      exact hNeg.trans (Int.tdiv_nonneg hb (by omega))
    · rw [← Int.neg_neg a, ← Int.neg_neg b, Int.neg_tdiv (-a), Int.neg_tdiv (-b),
        Int.tdiv_eq_ediv_of_nonneg (by omega : 0 ≤ -a), Int.tdiv_eq_ediv_of_nonneg (by omega : 0 ≤ -b)]
      refine Int.neg_le_neg (ediv_le_ediv hn hm ?_)
      rw [Int.neg_mul, Int.neg_mul]
      exact Int.neg_le_neg h

theorem length_filter_pos (hp : p ∈ seen subs) : 0 < (subs.filter (·.participantId = p)).length := by
  obtain ⟨s, hs, hp⟩ := List.any_eq_true.mp (mem_seen.mp hp)
  exact List.length_pos_of_mem (List.mem_filter.mpr ⟨hs, hp⟩)

theorem exactAverage_lt (hp : p ∈ seen subs) (hq : q ∈ seen subs)
    (h : truncatedAverage q subs < truncatedAverage p subs) :
    exactAverage q subs < exactAverage p subs := by
  have hm := length_filter_pos hp
  have hn := length_filter_pos hq
  by_contra hNot
  refine absurd h (not_lt.mpr (tdiv_le_tdiv hm hn ?_))
  unfold exactAverage PgRow.ofGroup at hNot
  rw [not_lt, div_le_div_iff₀ (by exact_mod_cast hm) (by exact_mod_cast hn)] at hNot
  exact_mod_cast hNot

abbrev byAverage (plan : List Id) (subs : List AnswerSubmission) (p q : Id) : Prop :=
  exactAverage p subs < exactAverage q subs ∨
    (exactAverage p subs = exactAverage q subs ∧ plan.idxOf p ≤ plan.idxOf q)

def pgOrder (plan : List Id) (subs : List AnswerSubmission) : List Id :=
  (seen subs).insertionSort (byTotal subs (byAverage plan subs))

theorem pgRows_eq (plan : List Id) (subs : List AnswerSubmission) :
    pgRows plan subs = (pgOrder plan subs).map (PgRow.ofGroup subs) := by
  exact (List.map_insertionSort (byTotal subs (byAverage plan subs)) _ (PgRow.ofGroup subs)
    (seen subs) fun p _ q _ => Iff.rfl).symm

theorem ranking_pgOrder (h : TiesAgree subs) (plan : List Id) : Ranking subs (pgOrder plan subs) := by
  have hTotal : Std.Total (byTotal subs (byAverage plan subs)) := by
    refine total_lex fun p q => ?_
    exact (total_lex (f := fun p => OrderDual.toDual (exactAverage p subs))
      fun p q => le_total (plan.idxOf p) (plan.idxOf q)).total p q
  have hTrans : IsTrans Id (byTotal subs (byAverage plan subs)) := by
    refine trans_lex fun p q x => ?_
    exact (trans_lex (f := fun p => OrderDual.toDual (exactAverage p subs))
      (s := fun p q => plan.idxOf p ≤ plan.idxOf q) fun p q x => Nat.le_trans).trans p q x
  have hPerm : (pgOrder plan subs).Perm (seen subs) := List.perm_insertionSort _ _
  have hNodup : (pgOrder plan subs).Nodup := hPerm.nodup_iff.mpr (nodup_eraseDups _)
  refine ⟨hPerm, (hNodup.and (List.pairwise_insertionSort _ (seen subs))).imp_of_mem ?_⟩
  rintro p q hp hq ⟨hNe, hOrder⟩
  have hp' := hPerm.mem_iff.mp hp
  have hq' := hPerm.mem_iff.mp hq
  refine h.above hp' hq' hNe (hOrder.imp_right fun ⟨hEq, hLe⟩ => ⟨hEq, fun hLt => ?_⟩)
  have hAverage := exactAverage_lt hp' hq' hLt
  obtain hLe | ⟨hLe, -⟩ := hLe
  · exact lt_asymm hAverage hLe
  · exact hAverage.ne hLe.symm

/-- `_sort_key` of a participant: `10**9` without an answer. -/
def rankKey (subs : List AnswerSubmission) (p : Id) : Int :=
  if answered subs p then truncatedAverage p subs else 10 ^ 9

def finalOrder (subs : List AnswerSubmission) (participants : List RoomParticipant) : List Id :=
  (everyone subs participants).insertionSort (byTotal subs fun p q => rankKey subs p ≤ rankKey subs q)

theorem tallyOf_sums (subs : List AnswerSubmission) (p : Id) :
    (tallyOf subs p).total = totalScore p subs ∧
    (tallyOf subs p).rtSum = ((subs.filter (·.participantId = p)).map (·.responseTimeMs)).sum ∧
    (tallyOf subs p).rtCount = (subs.filter (·.participantId = p)).length := by
  unfold tallyOf group totalScore
  generalize subs.filter (·.participantId = p) = own
  induction own using List.reverseRecOn with
  | nil => exact ⟨rfl, rfl, rfl⟩
  | append_singleton own s ih =>
    rw [List.foldl_append, List.foldl_cons, List.foldl_nil]
    generalize own.foldl _ _ = t at ih ⊢
    obtain ⟨hTotal, hSum, hCount⟩ := ih
    simp [Tally.add, hTotal, hSum, hCount]

theorem tallyOf_averageMs (subs : List AnswerSubmission) (p : Id) :
    (tallyOf subs p).averageMs.getD (10 ^ 9) = rankKey subs p := by
  obtain ⟨-, hSum, hCount⟩ := tallyOf_sums subs p
  unfold Tally.averageMs rankKey
  by_cases hp : answered subs p = true
  · have hPos := length_filter_pos (mem_seen.mpr hp)
    rw [if_pos hp, hSum, hCount, if_pos hPos]
    rfl
  · have hNil : subs.filter (·.participantId = p) = [] := by
      refine List.filter_eq_nil_iff.mpr fun s hs hEq => hp ?_
      exact List.any_eq_true.mpr ⟨s, hs, hEq⟩
    rw [if_neg hp, hCount, hNil]
    rfl

theorem sorted_perParticipant (subs : List AnswerSubmission) (participants : List RoomParticipant) :
    (perParticipant subs participants).insertionSort (fun a b => a.ranksBefore b) =
      (finalOrder subs participants).map (tallyOf subs) := by
  rw [perParticipant_eq]
  refine (List.map_insertionSort (byTotal subs fun p q => rankKey subs p ≤ rankKey subs q) _
    (tallyOf subs) _ fun p _ q _ => ?_).symm
  unfold Tally.ranksBefore
  rw [decide_eq_true_eq, tallyOf_averageMs, tallyOf_averageMs, (tallyOf_sums subs p).1,
    (tallyOf_sums subs q).1]

theorem total_rankKey (subs : List AnswerSubmission) :
    Std.Total (byTotal subs fun p q => rankKey subs p ≤ rankKey subs q) :=
  total_lex fun p q => le_total (rankKey subs p) (rankKey subs q)

theorem trans_rankKey (subs : List AnswerSubmission) :
    IsTrans Id (byTotal subs fun p q => rankKey subs p ≤ rankKey subs q) :=
  trans_lex fun _ _ _ hpq hqx => le_trans hpq hqx

theorem finalOrder_perm : (finalOrder subs participants).Perm (everyone subs participants) :=
  List.perm_insertionSort _ _

theorem finalOrder_nodup : (finalOrder subs participants).Nodup :=
  finalOrder_perm.nodup_iff.mpr (nodup_eraseDups _)

theorem finalOrder_filter_perm :
    ((finalOrder subs participants).filter (answered subs)).Perm (seen subs) := by
  refine (List.perm_ext_iff_of_nodup (finalOrder_nodup.filter _) (nodup_eraseDups _)).mpr fun p => ?_
  rw [List.mem_filter, finalOrder_perm.mem_iff, ← mem_seen]
  refine and_iff_right_of_imp fun hp => ?_
  exact List.mem_eraseDups.mpr (List.mem_append_left _ (List.mem_eraseDups.mp hp))

theorem ranking_finalOrder (h : TiesAgree subs) (participants : List RoomParticipant) :
    Ranking subs ((finalOrder subs participants).filter (answered subs)) := by
  have := total_rankKey subs
  have := trans_rankKey subs
  refine ⟨finalOrder_filter_perm, ?_⟩
  have hOrder := (finalOrder_nodup.and (List.pairwise_insertionSort
    (byTotal subs fun p q => rankKey subs p ≤ rankKey subs q) (everyone subs participants))).filter
      (answered subs)
  refine hOrder.imp_of_mem ?_
  rintro p q hp hq ⟨hNe, hKeys⟩
  have hp' := (List.mem_filter.mp hp).2
  have hq' := (List.mem_filter.mp hq).2
  refine h.above (mem_seen.mpr hp') (mem_seen.mpr hq') hNe ?_
  refine hKeys.imp_right fun ⟨hEq, hLe⟩ => ⟨hEq, ?_⟩
  simp only [rankKey, if_pos hp', if_pos hq'] at hLe
  exact not_lt.mpr hLe

theorem pair_finalOrder (h : [p, q].Sublist (everyone subs participants))
    (hKeys : totalScore q subs < totalScore p subs ∨
      (totalScore p subs = totalScore q subs ∧ rankKey subs p ≤ rankKey subs q)) :
    [p, q].Sublist (finalOrder subs participants) := by
  have := total_rankKey subs
  have := trans_rankKey subs
  exact List.pair_sublist_insertionSort hKeys h

end

section

variable {m : Id} {subs : List AnswerSubmission} {participants : List RoomParticipant} {db : Db}
  {r : Redis} {limit : Nat}

theorem map_mapIdx {β γ δ : Type} (l : List β) (f : Nat → β → γ) (h : γ → δ) (g : β → δ)
    (hEq : ∀ i b, h (f i b) = g b) : (l.mapIdx f).map h = l.map g := by
  refine List.ext_getElem (by simp) fun i _ _ => ?_
  simp [hEq]

theorem scoreRow_perm {subs' : List AnswerSubmission} (h : subs'.Perm subs) :
    scoreRow subs' = scoreRow subs := by
  funext p
  rw [scoreRow, scoreRow, totalScore_perm h]

theorem read_redis (plan : List Id) (hLive : Live db m subs) (hInc : Incremented r m subs) (hLimit : 0 < limit) :
    ∃ a, readLeaderboard .redis plan db r m limit = .ok a ∧
      ∃ ids, Ranking subs ids ∧ a.rows = (ids.take limit).map (scoreRow subs) := by
  obtain ⟨x, hFind, hStatus⟩ := hLive.row
  obtain ⟨order, hPerm, hTable⟩ := hInc
  refine ⟨⟨m, false, topEntries r m limit⟩, ?_, redisOrder order,
    (ranking_redisOrder order).perm_subs hPerm, ?_⟩
  · rw [readLeaderboard, hFind]
    exact if_neg hStatus
  · have hRows : LeaderboardResponse.rows ⟨m, false, topEntries r m limit⟩ =
        (zrevrange (r.leaderboard m) (limit - 1 + 1)).map id :=
      map_mapIdx _ _ _ id fun _ _ => rfl
    rw [hRows, List.map_id, hTable, zrevrange_foldl, scoreRow_perm hPerm, Nat.sub_add_cancel hLimit]

theorem read_pg (plan : List Id) (r : Redis) (limit : Nat) (hLive : Live db m subs) :
    ∃ a, readLeaderboard .pg plan db r m limit = .ok a ∧
      a.rows = ((pgOrder plan (db.submissionsOf m)).take limit).map (scoreRow subs) := by
  obtain ⟨x, hFind, hStatus⟩ := hLive.row
  refine ⟨⟨m, false, pgEntries plan db m limit⟩, ?_, ?_⟩
  · rw [readLeaderboard, hFind]
    exact if_neg hStatus
  · rw [LeaderboardResponse.rows, pgEntries, map_mapIdx _ _ _ (fun row => (row.participantId, row.score))
      fun _ _ => rfl, pgRows_eq, ← List.map_take, List.map_map, ← scoreRow_perm hLive.rows]
    rfl

theorem sorted_finalScores (ts : List Tally) :
    sortBy (fun f => (f.rank : Int)) (finalScores m ts) = finalScores m ts := by
  refine List.Pairwise.insertionSort_eq (List.pairwise_iff_getElem.mpr fun i j hi hj hij => ?_)
  simp only [finalScores, List.getElem_mapIdx]
  omega

theorem read_final (plan : List Id) (r : Redis) (limit : Nat)
    (hDone : Finished db m subs participants) :
    ∃ a, (∀ backend, readLeaderboard backend plan db r m limit = .ok a) ∧
      a.rows = ((finalOrder (db.submissionsOf m) participants).take limit).map (scoreRow subs) := by
  obtain ⟨x, hFind, hStatus⟩ := hDone.row
  refine ⟨⟨m, true, finalEntries db m limit⟩, fun backend => ?_, ?_⟩
  · simp only [readLeaderboard, hFind, if_pos hStatus]
  · have hRows : finalRows db m = finalScores m (perParticipant (db.submissionsOf m) participants) := by
      rw [← sorted_finalScores, ← hDone.scores]
      rfl
    have hScores : (finalScores m (perParticipant (db.submissionsOf m) participants)).map
        (fun f => (f.participantId, f.totalScore)) =
        (finalOrder (db.submissionsOf m) participants).map (scoreRow (db.submissionsOf m)) := by
      rw [finalScores, sorted_perParticipant, map_mapIdx _ _ _ (fun t => (t.participantId, t.total))
        fun _ _ => rfl, List.map_map]
      refine List.map_congr_left fun p _ => ?_
      rw [Function.comp, tallyOf_participantId, (tallyOf_sums _ p).1, scoreRow]
    rw [LeaderboardResponse.rows, finalEntries, hRows, List.map_map, ← scoreRow_perm hDone.rows,
      List.map_take, List.map_take, ← hScores]
    rfl

end

section

variable {m : Id} {subs scan : List AnswerSubmission} {participants : List RoomParticipant} {p q : Id}

theorem TiesAgree.perm (h : TiesAgree subs) (hPerm : scan.Perm subs) : TiesAgree scan := by
  intro p q hp hq hEq hLt
  rw [answered_perm hPerm] at hp hq
  rw [totalScore_perm hPerm, totalScore_perm hPerm] at hEq
  rw [truncatedAverage_perm hPerm, truncatedAverage_perm hPerm]
  exact h p q hp hq hEq hLt

theorem SilentLast.perm (h : SilentLast subs participants) (hPerm : scan.Perm subs) :
    SilentLast scan participants := by
  intro hSilent p hp
  rw [totalScore_perm hPerm, truncatedAverage_perm hPerm]
  simp only [answered_perm hPerm] at hSilent hp
  exact h hSilent p hp

theorem totalScore_silent (h : answered subs p = false) : totalScore p subs = 0 := by
  have hNil : subs.filter (·.participantId = p) = [] := by
    refine List.filter_eq_nil_iff.mpr fun s hs hp => ?_
    rw [← Bool.not_eq_true, answered, List.any_eq_true] at h
    exact h ⟨s, hs, hp⟩
  rw [totalScore, hNil]
  rfl

theorem mem_silent (h : p ∈ everyone subs participants) (hp : answered subs p = false) :
    p ∈ participants.map (·.id) ∧ p ∉ subs.map (·.participantId) := by
  have hNew : p ∉ subs.map (·.participantId) := by
    intro hMem
    rw [mem_seen.mp (List.mem_eraseDups.mpr hMem)] at hp
    cases hp
  exact ⟨(List.mem_append.mp (List.mem_eraseDups.mp h)).resolve_left hNew, hNew⟩

theorem SilentLast.behind (h : SilentLast subs participants) :
    (finalOrder subs participants).Pairwise fun p q => answered subs q → answered subs p := by
  refine List.pairwise_iff_forall_sublist.mpr fun {p q} hPair hq => ?_
  by_contra hp
  rw [Bool.not_eq_true] at hp
  obtain ⟨hKept, hNew⟩ := mem_silent (finalOrder_perm.mem_iff.mp (hPair.subset (by simp))) hp
  obtain ⟨u, hu, rfl⟩ := List.mem_map.mp hKept
  have hDict : [q, u.id].Sublist (everyone subs participants) :=
    pair_sublist_eraseDups (List.mem_eraseDups.mp (mem_seen.mpr hq)) hKept hNew
  refine not_pair_sublist_swap finalOrder_nodup hPair (pair_finalOrder hDict ?_)
  rw [totalScore_silent hp, rankKey, if_pos hq, rankKey, hp]
  exact h ⟨u, hu, hp⟩ q hq

theorem filter_scoreRow (ids : List Id) :
    (ids.map (scoreRow subs)).filter (fun x => answered subs x.1) =
      (ids.filter (answered subs)).map (scoreRow subs) :=
  List.filter_map

theorem agree_of_conditions (hTies : TiesAgree subs) (hSilent : SilentLast subs participants) :
    BackendsAgree m subs participants := by
  intro live final r plan limit hLive hInc hDone hLimit
  obtain ⟨a, hA, ids, hIds, hRowsA⟩ := read_redis plan hLive hInc hLimit
  obtain ⟨b, hB, hRowsB⟩ := read_pg plan r limit hLive
  obtain ⟨c, hC, hRowsC⟩ := read_final plan r limit hDone
  refine ⟨a, b, c, hA, hB, hC, ?_, ?_⟩
  · have hPg := (ranking_pgOrder (hTies.perm hLive.rows) plan).perm_subs hLive.rows
    rw [hRowsA, hRowsB, hIds.eq hPg]
  · have hFinal := (ranking_finalOrder (hTies.perm hDone.rows) participants).perm_subs hDone.rows
    have hAnswered : answered (final.submissionsOf m) = answered subs := funext fun p => answered_perm hDone.rows
    rw [hRowsA, hRowsC, filter_scoreRow, hIds.eq hFinal, ← hAnswered,
      filter_take (hSilent.perm hDone.rows).behind]

/-- A state of the match with these answers, and one after its end. -/
def liveDb (m : Id) (subs : List AnswerSubmission) : Db :=
  { emptyDb with matches' := [⟨m, 0, 0, .running, 0, none⟩], submissions := subs }

def finalDb (m : Id) (subs : List AnswerSubmission) (participants : List RoomParticipant) : Db :=
  { emptyDb with
    matches' := [⟨m, 0, 0, .completed, 0, none⟩]
    submissions := subs
    finalScores := finalScores m (perParticipant subs participants) }

def boardOf (subs : List AnswerSubmission) : Redis :=
  { Redis.empty with
    leaderboard := fun _ => subs.foldl (fun z s => zincrby z s.participantId s.scoreAwarded) [] }

theorem submissionsOf_all (db : Db) (h : ∀ s ∈ db.submissions, s.matchId = m) :
    db.submissionsOf m = db.submissions :=
  List.filter_eq_self.mpr fun s hs => decide_eq_true (h s hs)

theorem live_liveDb (h : ∀ s ∈ subs, s.matchId = m) : Live (liveDb m subs) m subs where
  row := ⟨⟨m, 0, 0, .running, 0, none⟩, by simp [liveDb], by simp⟩
  rows := by rw [submissionsOf_all (liveDb m subs) h]; rfl

theorem finished_finalDb (h : ∀ s ∈ subs, s.matchId = m) (hPerm : scan.Perm subs) :
    Finished (finalDb m scan participants) m subs participants := by
  have hScan : ∀ s ∈ scan, s.matchId = m := fun s hs => h s (hPerm.mem_iff.mp hs)
  have hSubs : (finalDb m scan participants).submissionsOf m = scan :=
    submissionsOf_all (finalDb m scan participants) hScan
  refine ⟨⟨⟨m, 0, 0, .completed, 0, none⟩, by simp [finalDb], rfl⟩, ?_, ?_⟩
  · rwa [hSubs]
  · rw [hSubs]
    exact List.filter_eq_self.mpr fun f hf => decide_eq_true (finalScores_matchId hf)

theorem BackendsAgree.final (h : BackendsAgree m subs participants) (hMatch : ∀ s ∈ subs, s.matchId = m)
    (hPerm : scan.Perm subs) (limit : Nat) (hLimit : 0 < limit) : ∃ ids, Ranking subs ids ∧
      ids.take limit = ((finalOrder scan participants).take limit).filter (answered subs) := by
  have hDone : Finished (finalDb m scan participants) m subs participants := finished_finalDb hMatch hPerm
  have hInc : Incremented (boardOf subs) m subs := ⟨subs, .refl _, rfl⟩
  obtain ⟨a, b, c, hA, -, hC, -, hRows⟩ :=
    h _ _ _ [] limit (live_liveDb hMatch) hInc hDone hLimit
  obtain ⟨a', hA', ids, hIds, hRowsA⟩ := read_redis [] (live_liveDb hMatch) hInc hLimit
  obtain ⟨c', hC', hRowsC⟩ := read_final [] (boardOf subs) limit hDone
  obtain rfl : a = a' := Except.ok.inj (hA.symm.trans hA')
  obtain rfl : c = c' := Except.ok.inj ((hC .pg).symm.trans (hC' .pg))
  refine ⟨ids, hIds, ?_⟩
  have hScan : (finalDb m scan participants).submissionsOf m = scan :=
    submissionsOf_all (finalDb m scan participants) fun s hs => hMatch s (hPerm.mem_iff.mp hs)
  rw [hRowsA, hRowsC, filter_scoreRow, hScan] at hRows
  exact List.map_injective_iff.mpr (fun p q hEq => congrArg Prod.fst hEq) hRows

/-- The answers of `q` read first put `q` before everyone it does not lose to. -/
theorem BackendsAgree.tiesAgree (h : BackendsAgree m subs participants)
    (hMatch : ∀ s ∈ subs, s.matchId = m) : TiesAgree subs := by
  intro p q hp hq hEq hLt
  by_contra hNot
  let scan := subs.filter (·.participantId = q) ++ subs.filter fun s => !decide (s.participantId = q)
  have hPerm : scan.Perm subs := List.filter_append_perm _ subs
  have hp' : answered scan p = true := (answered_perm hPerm).trans hp
  have hq' : answered scan q = true := (answered_perm hPerm).trans hq
  have hNe : p ≠ q := by
    rintro rfl
    exact lt_irrefl _ hLt
  have hFirst : [q, p].Sublist (everyone scan participants) := by
    have hScan : p ∈ scan.map (·.participantId) := List.mem_eraseDups.mp (mem_seen.mpr hp')
    rw [everyone, List.map_append, List.append_assoc]
    rw [List.map_append, List.mem_append] at hScan
    have hOther : p ∉ (subs.filter (·.participantId = q)).map (·.participantId) := by
      intro hMem
      obtain ⟨s, hs, hsp⟩ := List.mem_map.mp hMem
      exact hNe (hsp.symm.trans (of_decide_eq_true (List.mem_filter.mp hs).2))
    refine pair_sublist_eraseDups ?_ (List.mem_append_left _ (hScan.resolve_left hOther)) hOther
    obtain ⟨s, hs, hsq⟩ := List.any_eq_true.mp hq
    exact List.mem_map.mpr ⟨s, List.mem_filter.mpr ⟨hs, hsq⟩, of_decide_eq_true hsq⟩
  have hFinal : [q, p].Sublist (finalOrder scan participants) := by
    refine pair_finalOrder hFirst (.inr ⟨?_, ?_⟩)
    · rw [totalScore_perm hPerm, totalScore_perm hPerm, hEq]
    · rw [rankKey, rankKey, if_pos hp', if_pos hq', truncatedAverage_perm hPerm,
        truncatedAverage_perm hPerm]
      exact not_lt.mp hNot
  obtain ⟨ids, hIds, hTake⟩ := h.final hMatch hPerm (finalOrder scan participants).length
    (List.length_pos_of_mem (hFinal.subset List.mem_cons_self))
  have hRedis : [q, p].Sublist ids := by
    have hFilter := hFinal.filter (answered subs)
    rw [List.filter_cons_of_pos hq, List.filter_cons_of_pos hp, List.filter_nil] at hFilter
    rw [List.take_length] at hTake
    exact (hTake ▸ hFilter).trans (List.take_sublist _ ids)
  obtain hAbove | ⟨-, hAbove⟩ := List.pairwise_iff_forall_sublist.mp hIds.order hRedis
  · omega
  · exact lt_asymm hLt hAbove

theorem BackendsAgree.silentLast (h : BackendsAgree m subs participants)
    (hMatch : ∀ s ∈ subs, s.matchId = m) : SilentLast subs participants := by
  rintro ⟨u, hu, hSilent⟩ p hp
  by_contra hNot
  have hPos : 0 < (seen subs).length := List.length_pos_of_mem (mem_seen.mpr hp)
  obtain ⟨ids, hIds, hTake⟩ := h.final hMatch (.refl subs) (seen subs).length hPos
  rw [← hIds.perm.length_eq, List.take_length] at hTake
  have hpTake : p ∈ (finalOrder subs participants).take ids.length := by
    have hMem := hIds.perm.mem_iff.mpr (mem_seen.mpr hp)
    rw [hTake] at hMem
    exact (List.mem_filter.mp hMem).1
  have huAll : u.id ∈ finalOrder subs participants :=
    finalOrder_perm.mem_iff.mpr
      (List.mem_eraseDups.mpr (List.mem_append_right _ (List.mem_map_of_mem hu)))
  have hNe : u.id ≠ p := by
    rintro rfl
    rw [hp] at hSilent
    cases hSilent
  have hBefore : [u.id, p].Sublist (finalOrder subs participants) := by
    refine (pair_sublist_or huAll (List.mem_of_mem_take hpTake) hNe).resolve_right fun hPair => hNot ?_
    have := total_rankKey subs
    have := trans_rankKey subs
    have hKeys := List.pairwise_iff_forall_sublist.mp (List.pairwise_insertionSort
      (byTotal subs fun p q => rankKey subs p ≤ rankKey subs q) (everyone subs participants)) hPair
    rwa [byTotal, totalScore_silent hSilent, rankKey, if_pos hp, rankKey, hSilent] at hKeys
  have huTake := mem_take_of_pair finalOrder_nodup hBefore hpTake
  have hShort : (((finalOrder subs participants).take ids.length).filter (answered subs)).length <
      ((finalOrder subs participants).take ids.length).length :=
    List.length_filter_lt_length_iff_exists.mpr ⟨u.id, huTake, by simp [hSilent]⟩
  rw [← hTake, List.length_take] at hShort
  omega

/-- The three back ends agree, whatever the limit, the order of the increments, of the scan
and of the plan, exactly when the strings and the truncated averages decide every tie the
same way and nobody without an answer comes between. -/
theorem backends_agree_iff (hMatch : ∀ s ∈ subs, s.matchId = m) :
    BackendsAgree m subs participants ↔ TiesAgree subs ∧ SilentLast subs participants := by
  constructor
  · exact fun h => ⟨h.tiesAgree hMatch, h.silentLast hMatch⟩
  · exact fun ⟨hTies, hSilent⟩ => agree_of_conditions hTies hSilent

end

/-- Two wrong answers, of participants `8` and `9`, with these response times. -/
def Demo.wrongAnswers (rt₈ rt₉ : Int) : List AnswerSubmission :=
  [⟨100, 54, 55, 8, [1], false, 0, rt₈, "a"⟩, ⟨101, 54, 55, 9, [1], false, 0, rt₉, "b"⟩]

/-- Nine is faster than eight, and seven has not answered. -/
theorem backends_agree_iff_faster_nine : TiesAgree (Demo.wrongAnswers 200 100) ∧
    BackendsAgree 54 (Demo.wrongAnswers 200 100) [⟨7, 1, "sam", none, false⟩] := by
  have hAnswered : ∀ p, answered (Demo.wrongAnswers 200 100) p → p = 8 ∨ p = 9 := by
    intro p hp
    have hSeen : p ∈ [8, 9] := mem_seen.mpr hp
    simpa using hSeen
  have hTies : TiesAgree (Demo.wrongAnswers 200 100) := by
    intro p q hp hq
    obtain rfl | rfl := hAnswered p hp
    · obtain rfl | rfl := hAnswered q hq <;> decide +kernel
    · obtain rfl | rfl := hAnswered q hq <;> decide +kernel
  refine ⟨hTies, (backends_agree_iff (by decide)).mpr ⟨hTies, fun _ p hp => ?_⟩⟩
  obtain rfl | rfl := hAnswered p hp <;> decide +kernel

/-- Eight is faster than nine: the sorted set shows nine first, the aggregation and the
final scores eight. -/
theorem tie_shown_both_ways : ∃ (live final : Db) (r : Redis),
    Live live 54 (Demo.wrongAnswers 100 200) ∧ Incremented r 54 (Demo.wrongAnswers 100 200) ∧
    Finished final 54 (Demo.wrongAnswers 100 200) [] ∧
    (readLeaderboard .redis [] live r 54 10).map (·.rows) = .ok [(9, 0), (8, 0)] ∧
    (readLeaderboard .pg [] live r 54 10).map (·.rows) = .ok [(8, 0), (9, 0)] ∧
    (readLeaderboard .redis [] final r 54 10).map (·.rows) = .ok [(8, 0), (9, 0)] ∧
    ¬BackendsAgree 54 (Demo.wrongAnswers 100 200) [] := by
  have hMatch : ∀ s ∈ Demo.wrongAnswers 100 200, s.matchId = 54 := by decide
  refine ⟨liveDb 54 (Demo.wrongAnswers 100 200), finalDb 54 (Demo.wrongAnswers 100 200) [],
    boardOf (Demo.wrongAnswers 100 200), live_liveDb hMatch, ⟨_, .refl _, rfl⟩,
    finished_finalDb hMatch (.refl _), rfl, ?_, rfl, fun h => ?_⟩
  · decide +kernel
  · have := h.tiesAgree hMatch 9 8 (by decide) (by decide) (by decide) (by decide +kernel)
    revert this
    decide

end LiveQuiz
