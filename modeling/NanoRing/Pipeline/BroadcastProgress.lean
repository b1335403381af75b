import NanoRing.Common.Fairness
import NanoRing.Pipeline.BroadcastDelivery

/-!
# The broadcast pipeline ends

The producer of `Pipeline::run` never waits, and a book thread spins only while it has read
everything that is published and the flag is not set. So a fair schedule joins all threads,
whether or not a publish has lapped one of them, and each of them has read every sequence
number. What it has read there are the orders if no publish has lapped it.
-/

namespace NanoRing

open Schedule

namespace BroadcastRun

variable {orders : List DecodedOrder} {numThreads : ℕ} {s s' : BroadcastRun} {t : ℕ}

/-- The two steps of the producer and the book threads. -/
def actions (numThreads : ℕ) : Set BroadcastAction :=
  {a | a = .publish ∨ a = .setDone ∨ ∃ t < numThreads, a = .thread t}

/-- The flag is set and every thread has left its loop. -/
def Joined (numThreads : ℕ) (s : BroadcastRun) : Prop :=
  s.producerDone = true ∧ ∀ t < numThreads, (s.threads t).pc = .exited

/-- Thread `t` has not read everything that is published. -/
def behind (s : BroadcastRun) (t : ℕ) : Bool := (s.threads t).localSeq < s.journal.publishedIndex

/-! ### The rank -/

/-- The publishes and the store of the flag that are left. -/
def producerRank (orders : List DecodedOrder) (s : BroadcastRun) : ℕ :=
  orders.length - s.nextOrder + if s.producerDone then 0 else 1

/-- How far a place is from a read or from leaving the loop. -/
def placeRank (behind done : Bool) (localSeq : ℕ) : BookThreadPc → ℕ
  | .loadPublished => if behind then 1 else if done then 3 else 1
  | .testDone => if behind then 3 else if done then 2 else 1
  | .reloadPublished => if behind then 2 else 1
  | .draining published =>
    if localSeq < published then 0 else if behind then 3 else if done then 5 else 3
  | .report => if behind then 2 else if done then 4 else 2
  | .exited => 0

/-- The sequence numbers that thread `t` has not read, and its place. -/
def threadRank (orders : List DecodedOrder) (s : BroadcastRun) (t : ℕ) : ℕ :=
  6 * (orders.length - (s.threads t).localSeq) +
    placeRank (s.behind t) s.producerDone (s.threads t).localSeq (s.threads t).pc

def rank (orders : List DecodedOrder) (numThreads : ℕ) (s : BroadcastRun) : ℕ ×ₗ ℕ :=
  toLex (producerRank orders s, ∑ t ∈ Finset.range numThreads, threadRank orders s t)

theorem placeRank_le (behind done : Bool) (localSeq : ℕ) (pc : BookThreadPc) :
    placeRank behind done localSeq pc ≤ 5 := by
  cases pc with
  | draining published =>
    rw [placeRank]
    split
    · exact Nat.zero_le _
    · cases behind <;> cases done <;> decide
  | loadPublished | testDone | reloadPublished | report | exited =>
    rw [placeRank]
    cases behind <;> cases done <;> decide

/-- A thread that has read everything that is published and may not leave yet. -/
def Waits (s : BroadcastRun) (t : ℕ) : Prop :=
  s.behind t = false ∧ s.producerDone = false ∧
    ((s.threads t).pc = .loadPublished ∨ (s.threads t).pc = .testDone)

/-- The steps of a book thread, each with what it has found. -/
inductive ThreadMoves (numThreads : ℕ) (s : BroadcastRun) (t : ℕ) : BroadcastRun → Prop
  | caughtUp (hpc : (s.threads t).pc = .loadPublished) (hbehind : s.behind t = false) :
      ThreadMoves numThreads s t (s.setThread t { s.threads t with pc := .testDone })
  | load (hpc : (s.threads t).pc = .loadPublished) (hbehind : s.behind t = true) :
      ThreadMoves numThreads s t
        (s.setThread t { s.threads t with pc := .draining s.journal.publishedIndex })
  | foundDone (hpc : (s.threads t).pc = .testDone) (hdone : s.producerDone = true) :
      ThreadMoves numThreads s t (s.setThread t { s.threads t with pc := .reloadPublished })
  | again (hpc : (s.threads t).pc = .testDone) (hdone : s.producerDone = false) :
      ThreadMoves numThreads s t (s.setThread t { s.threads t with pc := .loadPublished })
  | leave (hpc : (s.threads t).pc = .reloadPublished) (hbehind : s.behind t = false) :
      ThreadMoves numThreads s t
        { s.setThread t { s.threads t with pc := .exited } with
          threadMessageCounts :=
            Function.update s.threadMessageCounts t (s.threads t).localCount }
  | moreOrders (hpc : (s.threads t).pc = .reloadPublished) (hbehind : s.behind t = true) :
      ThreadMoves numThreads s t (s.setThread t { s.threads t with pc := .loadPublished })
  | read (published : ℕ) (hpc : (s.threads t).pc = .draining published)
      (hlt : (s.threads t).localSeq < published) :
      ThreadMoves numThreads s t (s.setThread t (s.drain numThreads t))
  | drained (published : ℕ) (hpc : (s.threads t).pc = .draining published)
      (hge : ¬ (s.threads t).localSeq < published) :
      ThreadMoves numThreads s t (s.setThread t { s.threads t with pc := .report })
  | report (hpc : (s.threads t).pc = .report) :
      ThreadMoves numThreads s t
        { s.setThread t { s.threads t with pc := .loadPublished } with
          journal := s.journal.reportConsumerProgress (s.threads t).localSeq }

theorem threadMoves_of_threadStep (h : s.threadStep numThreads t = some s') :
    ThreadMoves numThreads s t s' := by
  have hbehind_iff : s.behind t = false ↔ (s.threads t).localSeq ≥ s.journal.getPublishedIndex := by
    rw [behind, decide_eq_false_iff_not, Nat.not_lt]
    rfl
  unfold BroadcastRun.threadStep at h
  dsimp only at h
  cases hpc : (s.threads t).pc with
  | loadPublished =>
    simp only [hpc] at h
    split at h
    · rename_i hall
      exact Option.some.inj h ▸ .caughtUp hpc (hbehind_iff.mpr hall)
    · rename_i hmore
      refine Option.some.inj h ▸ .load hpc (Bool.eq_true_of_not_eq_false fun hall => hmore ?_)
      exact hbehind_iff.mp hall
  | testDone =>
    simp only [hpc] at h
    split at h
    · rename_i hdone
      exact Option.some.inj h ▸ .foundDone hpc hdone
    · rename_i hdone
      exact Option.some.inj h ▸ .again hpc (Bool.eq_false_of_not_eq_true hdone)
  | reloadPublished =>
    simp only [hpc] at h
    split at h
    · rename_i hall
      exact Option.some.inj h ▸ .leave hpc (hbehind_iff.mpr hall)
    · rename_i hmore
      refine Option.some.inj h ▸ .moreOrders hpc (Bool.eq_true_of_not_eq_false fun hall => hmore ?_)
      exact hbehind_iff.mp hall
  | draining published =>
    simp only [hpc] at h
    split at h
    · rename_i hlt
      exact Option.some.inj h ▸ .read published hpc hlt
    · rename_i hge
      exact Option.some.inj h ▸ .drained published hpc hge
  | report =>
    simp only [hpc] at h
    exact Option.some.inj h ▸ .report hpc
  | exited =>
    simp only [hpc] at h
    contradiction

theorem reportConsumerProgress_publishedIndex (journal : BroadcastJournal DecodedOrder)
    (consumerSeq : ℕ) :
    (journal.reportConsumerProgress consumerSeq).publishedIndex = journal.publishedIndex := by
  unfold BroadcastJournal.reportConsumerProgress
  split <;> rfl

/-- A step of a thread leaves the producer, the published index and the other threads as they are. -/
theorem ThreadMoves.frame (h : ThreadMoves numThreads s t s') :
    s'.nextOrder = s.nextOrder ∧ s'.producerDone = s.producerDone ∧
      s'.journal.publishedIndex = s.journal.publishedIndex ∧
      ∀ t', t' ≠ t → s'.threads t' = s.threads t' := by
  cases h with
  | report hpc =>
    exact ⟨rfl, rfl, reportConsumerProgress_publishedIndex _ _, fun _ hne => setThread_of_ne hne _⟩
  | caughtUp | load | foundDone | again | leave | moreOrders | read | drained =>
    exact ⟨rfl, rfl, rfl, fun _ hne => setThread_of_ne hne _⟩

/-- Moving a thread to a place of a lower rank lowers its rank. -/
theorem threadRank_lt_of_place {thread : BookThread} (hself : s'.threads t = thread)
    (hlocal : thread.localSeq = (s.threads t).localSeq)
    (hpublished : s'.journal.publishedIndex = s.journal.publishedIndex)
    (hdone : s'.producerDone = s.producerDone)
    (hplace : placeRank (s.behind t) s.producerDone (s.threads t).localSeq thread.pc <
      placeRank (s.behind t) s.producerDone (s.threads t).localSeq (s.threads t).pc) :
    threadRank orders s' t < threadRank orders s t := by
  rw [threadRank, threadRank, behind, hself, hlocal, hpublished, hdone]
  exact Nat.add_lt_add_left hplace _

/-- Every step of a thread that does not wait lowers its rank. -/
theorem ThreadMoves.threadRank_lt (h : ThreadMoves numThreads s t s')
    (hpaced : Paced orders numThreads s) (ht : t < numThreads) (hbusy : ¬ s.Waits t) :
    threadRank orders s' t < threadRank orders s t := by
  have hknows := hpaced.knows t ht
  cases h with
  | caughtUp hpc hbehind =>
    have hdone : s.producerDone = true := by
      by_contra hopen
      exact hbusy ⟨hbehind, Bool.eq_false_of_not_eq_true hopen, .inl hpc⟩
    refine threadRank_lt_of_place (setThread_self _ _ _) rfl rfl rfl ?_
    rw [hpc, hbehind, hdone]
    exact Nat.lt_add_one 2
  | load hpc hbehind =>
    have hfresh : placeRank true s.producerDone (s.threads t).localSeq
        (.draining s.journal.publishedIndex) = 0 := if_pos (of_decide_eq_true hbehind)
    refine threadRank_lt_of_place (setThread_self _ _ _) rfl rfl rfl ?_
    rw [hpc, hbehind, hfresh]
    exact Nat.zero_lt_one
  | foundDone hpc hdone =>
    refine threadRank_lt_of_place (setThread_self _ _ _) rfl rfl rfl ?_
    rw [hpc, hdone]
    cases s.behind t <;> exact Nat.lt_add_one _
  | again hpc hdone =>
    have hbehind : s.behind t = true := by
      by_contra hall
      exact hbusy ⟨Bool.eq_false_of_not_eq_true hall, hdone, .inr hpc⟩
    refine threadRank_lt_of_place (setThread_self _ _ _) rfl rfl rfl ?_
    rw [hpc, hdone, hbehind, placeRank, placeRank]
    decide
  | leave hpc hbehind =>
    refine threadRank_lt_of_place (setThread_self s t _) rfl rfl rfl ?_
    rw [hpc, hbehind]
    exact Nat.zero_lt_one
  | moreOrders hpc hbehind =>
    refine threadRank_lt_of_place (setThread_self _ _ _) rfl rfl rfl ?_
    rw [hpc, hbehind]
    exact Nat.lt_add_one 1
  | read published hpc hlt =>
    -- the read sequence number outweighs every place
    have hlast := (hknows.draining_le published hpc).trans hpaced.next_le
    have hplace := placeRank_le ((s.setThread t (s.drain numThreads t)).behind t) s.producerDone
      ((s.threads t).localSeq + 1) (.draining published)
    rw [threadRank, threadRank, setThread_self, drain_localSeq, drain_pc, hpc]
    change 6 * _ + placeRank _ s.producerDone _ _ < _
    omega
  | drained published hpc hge =>
    refine threadRank_lt_of_place (setThread_self _ _ _) rfl rfl rfl ?_
    rw [hpc, placeRank, placeRank, if_neg hge]
    cases s.behind t <;> cases s.producerDone <;> decide
  | report hpc =>
    refine threadRank_lt_of_place (setThread_self s t _) rfl
      (reportConsumerProgress_publishedIndex _ _) rfl ?_
    rw [hpc, placeRank, placeRank]
    cases s.behind t <;> cases s.producerDone <;> decide

/-- A thread that waits goes on waiting. -/
theorem ThreadMoves.of_waits (h : ThreadMoves numThreads s t s') (hwaits : s.Waits t) :
    ∃ pc, (pc = .loadPublished ∨ pc = .testDone) ∧
      s' = s.setThread t { s.threads t with pc := pc } := by
  obtain ⟨hbehind, hdone, hpc⟩ := hwaits
  cases h with
  | caughtUp => exact ⟨.testDone, .inr rfl, rfl⟩
  | again => exact ⟨.loadPublished, .inl rfl, rfl⟩
  | load _ hmore =>
    rw [hbehind] at hmore
    contradiction
  | foundDone _ hset =>
    rw [hdone] at hset
    contradiction
  | leave hplace | moreOrders hplace | read _ hplace | drained _ hplace | report hplace =>
    rw [hplace] at hpc
    simp at hpc

/-- The rank goes down with the rank of one thread. -/
theorem ThreadMoves.rank_lt (h : ThreadMoves numThreads s t s') (ht : t < numThreads)
    (hlower : threadRank orders s' t < threadRank orders s t) :
    rank orders numThreads s' < rank orders numThreads s := by
  obtain ⟨hnext, hdone, hpublished, hothers⟩ := h.frame
  have hproducer : producerRank orders s' = producerRank orders s := by
    rw [producerRank, producerRank, hnext, hdone]
  have hother (t' : ℕ) (hne : t' ≠ t) : threadRank orders s' t' = threadRank orders s t' := by
    rw [threadRank, threadRank, behind, behind, hothers t' hne, hdone, hpublished]
  exact lex_sum_lt hproducer ht hother hlower

/-! ### Fair schedules -/

/-- A step of the producer, or of a thread that does not wait. -/
def Helps (orders : List DecodedOrder) (numThreads : ℕ) (s : BroadcastRun) : BroadcastAction → Prop
  | .publish => s.nextOrder < orders.length
  | .setDone => s.nextOrder = orders.length ∧ s.producerDone = false
  | .thread t => t < numThreads ∧ (s.threads t).pc ≠ .exited ∧ ¬ s.Waits t

theorem rank_lt_of_producer (h : producerRank orders s' < producerRank orders s) :
    rank orders numThreads s' < rank orders numThreads s :=
  Prod.Lex.toLex_lt_toLex.mpr (.inl h)

theorem publish_lowers (h : s.publish orders = some s') :
    producerRank orders s' < producerRank orders s := by
  unfold BroadcastRun.publish at h
  split at h
  · rename_i order horder
    obtain rfl := Option.some.inj h
    obtain ⟨hlt, -⟩ := List.getElem?_eq_some_iff.mp horder
    refine Nat.add_lt_add_right ?_ _
    change orders.length - (s.nextOrder + 1) < orders.length - s.nextOrder
    omega
  · contradiction

theorem setDone_lowers (h : s.setDone orders = some s') :
    producerRank orders s' < producerRank orders s := by
  obtain ⟨hcond, hset⟩ := Option.ite_none_right_eq_some.mp h
  obtain rfl := Option.some.inj hset
  rw [producerRank, producerRank, hcond.2]
  exact Nat.lt_add_one _

theorem threadStep_isSome (numThreads : ℕ) (h : (s.threads t).pc ≠ .exited) :
    (s.threadStep numThreads t).isSome := by
  unfold BroadcastRun.threadStep
  dsimp only
  cases hpc : (s.threads t).pc with
  | exited => exact absurd hpc h
  | report => rfl
  | loadPublished | testDone | reloadPublished | draining => dsimp only; split <;> rfl

theorem rank_setPc_of_waits (hwaits : s.Waits t) {pc : BookThreadPc}
    (hpc : pc = .loadPublished ∨ pc = .testDone) :
    rank orders numThreads (s.setThread t { s.threads t with pc := pc }) =
      rank orders numThreads s := by
  obtain ⟨hbehind, hdone, hplace⟩ := hwaits
  have hone (localSeq : ℕ) (place : BookThreadPc) (h : place = .loadPublished ∨ place = .testDone) :
      placeRank false false localSeq place = 1 := by
    rcases h with rfl | rfl <;> rfl
  refine congrArg (fun sum => toLex (producerRank orders s, sum))
    (Finset.sum_congr rfl fun t' _ => ?_)
  by_cases hne : t' = t
  · subst hne
    rw [threadRank, threadRank, behind, setThread_self]
    change _ + placeRank (s.behind t') s.producerDone _ pc = _
    rw [hbehind, hdone, hone _ _ hpc, hone _ _ hplace]
  · rw [threadRank, threadRank, behind, behind, setThread_of_ne hne]
    rfl

/-- Until all threads are joined, the producer has a step or a thread has one that it does not
wait for. -/
theorem ranks (orders : List DecodedOrder) (numThreads : ℕ) :
    Ranks (BroadcastRun.step orders numThreads) (actions numThreads) (Paced orders numThreads)
      (Joined numThreads) (Helps orders numThreads) (rank orders numThreads) where
  helped := by
    intro s hpaced hopen
    by_cases hmore : s.nextOrder < orders.length
    · exact ⟨.publish, .inl rfl, hmore⟩
    have hall : s.nextOrder = orders.length := le_antisymm hpaced.next_le (Nat.le_of_not_lt hmore)
    cases hdone : s.producerDone with
    | false => exact ⟨.setDone, .inr (.inl rfl), hall, hdone⟩
    | true =>
      have hleft : ∃ t < numThreads, (s.threads t).pc ≠ .exited := by
        by_contra hexited
        exact hopen ⟨hdone, fun t ht => by_contra fun hpc => hexited ⟨t, ht, hpc⟩⟩
      obtain ⟨t, ht, hpc⟩ := hleft
      refine ⟨.thread t, .inr (.inr ⟨t, ht, rfl⟩), ht, hpc, fun hwaits => ?_⟩
      exact absurd (hdone.symm.trans hwaits.2.1) (by decide)
  lowers := by
    intro s a hpaced hhelps
    cases a with
    | publish =>
      have hlt : s.nextOrder < orders.length := hhelps
      have hstep : s.step orders numThreads .publish = some _ :=
        step_publish (List.getElem?_eq_getElem hlt)
      exact ⟨_, hstep, rank_lt_of_producer (publish_lowers hstep)⟩
    | setDone =>
      have hstep : s.setDone orders = some { s with producerDone := true } := if_pos hhelps
      exact ⟨_, hstep, rank_lt_of_producer (setDone_lowers hstep)⟩
    | thread t =>
      obtain ⟨ht, hpc, hbusy⟩ := hhelps
      obtain ⟨s', hstep⟩ := Option.isSome_iff_exists.mp (threadStep_isSome numThreads hpc)
      have hmoves := threadMoves_of_threadStep hstep
      exact ⟨s', (if_pos ht).trans hstep, hmoves.rank_lt ht (hmoves.threadRank_lt hpaced ht hbusy)⟩
  keeps := by
    intro s b s' hpaced hstep
    cases b with
    | publish => exact .inl (rank_lt_of_producer (publish_lowers hstep))
    | setDone => exact .inl (rank_lt_of_producer (setDone_lowers hstep))
    | thread t =>
      obtain ⟨ht, hthread⟩ := Option.ite_none_right_eq_some.mp hstep
      have hmoves := threadMoves_of_threadStep hthread
      by_cases hwaits : s.Waits t
      · obtain ⟨pc, hpc, rfl⟩ := hmoves.of_waits hwaits
        refine .inr ⟨rank_setPc_of_waits hwaits hpc, fun a hhelps => ?_⟩
        cases a with
        | publish => exact hhelps
        | setDone => exact hhelps
        | thread t' =>
          obtain ⟨ht', hinside, hbusy⟩ := hhelps
          have hne : t' ≠ t := by
            rintro rfl
            exact hbusy hwaits
          have hsame := setThread_of_ne (s := s) hne { s.threads t with pc := pc }
          refine ⟨ht', hsame ▸ hinside, fun hwaits' => hbusy ?_⟩
          rw [Waits, behind, hsame] at hwaits'
          exact hwaits'
      · exact .inl (hmoves.rank_lt ht (hmoves.threadRank_lt hpaced ht hwaits))

theorem final_of_joined (hpaced : Paced orders numThreads s) (h : Joined numThreads s) :
    Final (BroadcastRun.step orders numThreads) s := by
  have hall := hpaced.next_of_done h.1
  intro a
  cases a with
  | publish =>
    rw [BroadcastRun.step, BroadcastRun.publish, List.getElem?_eq_none hall.ge]
  | setDone =>
    rw [BroadcastRun.step, BroadcastRun.setDone, h.1, if_neg (by simp)]
  | thread t =>
    rw [BroadcastRun.step, ite_eq_right_iff]
    intro ht
    rw [BroadcastRun.threadStep, h.2 t ht]

/-- Whatever the feed, every schedule that gives the producer and each book thread a turn again
and again joins all threads after each has read every sequence number; if no publish of the
schedule laps a thread, every order is applied by the thread of its shard. -/
theorem fair_schedule_reads_all {turns : ℕ → BroadcastAction}
    (hfair : Fair (actions numThreads) turns) :
    ∃ n s, (∀ m, n ≤ m → stateAt (BroadcastRun.step orders numThreads) start turns m = s) ∧
      Joined numThreads s ∧ (∀ t < numThreads, (s.threads t).localSeq = orders.length) ∧
      ((∀ m, KeepsUp orders numThreads
          (stateAt (BroadcastRun.step orders numThreads) start turns m) (turns m)) →
        ∀ t < numThreads,
          (s.threads t).manager =
              ShardedBookManager.empty.applyAll (shardOrders numThreads orders t) ∧
            s.threadMessageCounts t = (shardOrders numThreads orders t).length) := by
  have hpaced (n : ℕ) :
      Paced orders numThreads (stateAt (BroadcastRun.step orders numThreads) start turns n) := by
    obtain ⟨taken, hrun⟩ := exists_run_stateAt (BroadcastRun.step orders numThreads) start turns n
    exact run_invariant (fun _ _ _ h hstep => Paced.step h hstep) (start_paced orders numThreads)
      hrun
  obtain ⟨n, hjoined⟩ := (ranks orders numThreads).eventually_done hpaced hfair
  refine ⟨n, _, fun m hle => stateAt_of_final (final_of_joined (hpaced n) hjoined) hle, hjoined,
    fun t ht => (((hpaced n).knows t ht).read_all (hjoined.2 t ht)).1, fun hkeepsUp t ht => ?_⟩
  have hinv := stateAt_invariant (fun _ _ _ h hkeeps hstep => Inv.step h hkeeps hstep)
    (start_inv orders numThreads) hkeepsUp n
  obtain ⟨hseen, hcount⟩ := hinv.of_exited ht (hjoined.2 t ht)
  exact ⟨by rw [(hinv.reads t ht).manager, hseen], hcount⟩

/-- The two steps of the producer and the book threads take turns. -/
def turnAbout (numThreads n : ℕ) : BroadcastAction :=
  match n % (numThreads + 2) with
  | 0 => .publish
  | 1 => .setDone
  | t + 2 => .thread t

theorem turnAbout_fair (numThreads : ℕ) : Fair (actions numThreads) (turnAbout numThreads) := by
  refine fair_of_periodic (Nat.succ_pos (numThreads + 1)) (fun n => ?_) fun a ha => ?_
  · rw [turnAbout, turnAbout, Nat.add_mod_right]
  · obtain rfl | rfl | ⟨t, ht, rfl⟩ := ha
    · exact ⟨0, by rw [turnAbout, Nat.zero_mod]⟩
    · exact ⟨1, by rw [turnAbout, Nat.mod_eq_of_lt (by omega)]⟩
    · exact ⟨t + 2, by rw [turnAbout, Nat.mod_eq_of_lt (Nat.add_lt_add_right ht 2)]⟩

/-- Two threads read the three orders, each applying those of its shard. -/
theorem turnAbout_reads_all :
    ∃ n s, (∀ m, n ≤ m → stateAt (BroadcastRun.step threeOrders 2) start (turnAbout 2) m = s) ∧
      Joined 2 s ∧ (∀ t < 2, (s.threads t).localSeq = 3) ∧ ∀ t < 2,
        (s.threads t).manager =
          ShardedBookManager.empty.applyAll (shardOrders 2 threeOrders t) := by
  obtain ⟨n, s, hstays, hjoined, hread, happlied⟩ :=
    @fair_schedule_reads_all threeOrders 2 (turnAbout 2) (turnAbout_fair 2)
  exact ⟨n, s, hstays, hjoined, hread,
    fun t ht => (happlied (fun _ => keepsUp_of_length_le (by decide) _) t ht).1⟩

end BroadcastRun

end NanoRing
