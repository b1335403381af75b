import NanoRing.Pipeline.OrderedRoutedInvariant

/-!
# The routed pipeline under its memory orders

A thread that finds its queue empty loads the flag with acquire; once it has seen the flag it knows of
every push into its queue, so that the count of the orders that are left, on which it leaves, is not an
old one.
-/

namespace NanoRing

open MemoryOrder Schedule

namespace OrderedRoutedRun

variable {orders : OrderArray} {numThreads : ℕ} {s s' : OrderedRoutedRun} {t i : ℕ}

/-! ### Accesses of a book thread -/

theorem Inv.refines_thread (h : Inv orders numThreads s) (ht : t < numThreads) {a : AccessRun}
    (hstep : s.accesses.threadStep t = some a) :
    ∃ c, AccessRun.Refines orders numThreads a c ∧ c.Batched orders numThreads := by
  obtain ⟨c, hrefines, hbatched⟩ := h.refines
  obtain ⟨hsame, -⟩ | ⟨c', hthread, hmoved⟩ := hrefines.thread ht hstep
  · exact ⟨c, hsame, hbatched⟩
  · exact ⟨c', hmoved, hbatched.threadMoves (RoutedRun.threadMoves_of_threadStep hthread)⟩

/-- A load changes what its thread is about to do, and nothing that is published. -/
theorem Inv.loadThread (h : Inv orders numThreads s) {a : AccessRun} {m : RoutedMemory}
    (hrefines : ∃ c, AccessRun.Refines orders numThreads a c ∧ c.Batched orders numThreads)
    (hpush : a.push = s.accesses.push)
    (hdone : a.pipeline.producerDone = s.accesses.pipeline.producerDone)
    (hqueues : a.pipeline.queues = s.accesses.pipeline.queues)
    (hother : ∀ t' ≠ t, a.pop t' = s.accesses.pop t' ∧
      a.pipeline.consumers t' = s.accesses.pipeline.consumers t')
    (hemptying : (a.pop t).emptying = (s.accesses.pop t).emptying)
    (hmemory : m = s.memory ∨ ∃ p i, m = s.memory.acquire (.book t) p i)
    (hitem : ItemSeen ⟨a, m⟩ t)
    (htold : (a.pipeline.consumers t).pc = .testAvailable → 1 ≤ m.seen (.book t) .done) :
    Inv orders numThreads ⟨a, m⟩ := by
  have hshard : ∀ t' < numThreads, ShardMemory s.memory t' (s.accesses.pipeline.queues t').head.toNat
      (s.accesses.push.filling t') (a.pipeline.queues t').tail.toNat (a.pop t').emptying := by
    intro t' ht'
    rw [hqueues]
    by_cases hne : t' = t
    · rw [hne, hemptying]
      exact hne ▸ h.shard t' ht'
    · rw [(hother t' hne).1]
      exact h.shard t' ht'
  have hmoved : ∀ t' ≠ t, a.pop t' = s.accesses.pop t' ∧
      (a.pipeline.consumers t').pc = (s.accesses.pipeline.consumers t').pc ∧
      (a.pipeline.queues t').tail = (s.accesses.pipeline.queues t').tail := fun t' hne =>
    ⟨(hother t' hne).1, congrArg RoutedConsumer.pc (hother t' hne).2,
      congrArg SpscQueue.tail (congrFun hqueues t')⟩
  have hhead := fun t' => congrArg SpscQueue.head (congrFun hqueues t')
  obtain rfl | ⟨p, i, rfl⟩ := hmemory
  · exact h.moveThread hrefines hpush hdone hhead hmoved h.past (fun _ _ => le_rfl) h.flag hshard hitem
      htold
  · exact h.moveThread hrefines hpush hdone hhead hmoved h.past.acquire
      (fun thread => s.memory.seen_le_acquire _ _ _ thread) h.flag.acquire
      (fun t' ht' => (hshard t' ht').acquire) hitem htold

/-- A thread goes to its next access. -/
theorem Inv.setPop (h : Inv orders numThreads s) (ht : t < numThreads) {pop : PopAccess}
    {m : RoutedMemory} (hstep : s.accesses.threadStep t = some (s.accesses.setPop t pop))
    (hemptying : pop.emptying = (s.accesses.pop t).emptying)
    (hmemory : m = s.memory ∨ ∃ p i, m = s.memory.acquire (.book t) p i)
    (hitem : ItemSeen ⟨s.accesses.setPop t pop, m⟩ t) :
    Inv orders numThreads ⟨s.accesses.setPop t pop, m⟩ := by
  refine h.loadThread (h.refines_thread ht hstep) rfl rfl rfl
    (fun t' hne => ⟨s.accesses.setPop_of_ne hne _, rfl⟩)
    ((congrArg PopAccess.emptying (s.accesses.setPop_self t pop)).trans hemptying) hmemory hitem
    fun hpc => ?_
  obtain rfl | ⟨p, i, rfl⟩ := hmemory
  · exact h.told t ht hpc
  · exact (h.told t ht hpc).trans (s.memory.seen_le_acquire _ _ _ _ _)

/-- A thread goes on in its loop. -/
theorem Inv.goTo (h : Inv orders numThreads s) {pc : RoutedConsumerPc} {m : RoutedMemory}
    (hhand : RoutedRun.inHand (s.accesses.pipeline.consumers t) = [])
    (hhand' : RoutedRun.inHand { s.accesses.pipeline.consumers t with pc := pc } = [])
    (hdone : pc = .testAvailable → s.accesses.pipeline.producerDone = true) (hexited : pc ≠ .exited)
    (hemptying : (s.accesses.pop t).emptying = 0)
    (hmemory : m = s.memory ∨ ∃ p i, m = s.memory.acquire (.book t) p i)
    (htold : pc = .testAvailable → 1 ≤ m.seen (.book t) .done) :
    Inv orders numThreads ⟨s.accesses.goTo t pc, m⟩ := by
  have hrefines : ∃ c, AccessRun.Refines orders numThreads (s.accesses.goTo t pc) c ∧
      c.Batched orders numThreads := by
    obtain ⟨c, hrefines, hbatched⟩ := h.refines
    exact ⟨_, hrefines.goTo hhand hhand' hdone hexited, hbatched.setConsumer t _⟩
  have hself : (s.accesses.goTo t pc).pop t = .outside := s.accesses.setPop_self t _
  have hconsumer : ((s.accesses.goTo t pc).pipeline.consumers t).pc = pc :=
    congrArg RoutedConsumer.pc (RoutedRun.setConsumer_self _ _ _)
  exact h.loadThread hrefines rfl rfl rfl (fun t' hne => ⟨s.accesses.setPop_of_ne hne _,
    RoutedRun.setConsumer_of_ne hne _⟩) (hself ▸ hemptying.symm) hmemory
    (itemSeen_of_pop hself fun _ h => by cases h) fun hpc' => htold (hconsumer.symm.trans hpc')

/-- The thread's test of an old index of the producer. -/
theorem Inv.isEmpty_position (hle : i ≤ (s.accesses.pipeline.queues t).head.toNat) :
    SpscQueue.isEmpty (position 64 i) (s.accesses.pipeline.queues t).tail = true ↔
      i ≤ (s.accesses.pipeline.queues t).tail.toNat := by
  rw [SpscQueue.isEmpty_iff_toNat,
    SpscQueue.toNat_position (hle.trans_lt (s.accesses.pipeline.queues t).head.isLt)]

/-- The read position that a thread loads is the one that it has stored last. -/
theorem Inv.loadTail (h : Inv orders numThreads s) (ht : t < numThreads) {tail : BitVec 64}
    {m : RoutedMemory}
    (hload : s.memory.loadRelaxed (.book t) (.queue t .tail) i = some (tail, m)) :
    tail = (s.accesses.pipeline.queues t).tail ∧ m = s.memory := by
  obtain ⟨rfl, rfl⟩ := (h.shard t ht).empties.loadRelaxed hload
  exact ⟨(SpscQueue.eq_position _).symm, rfl⟩

/-- A thread that finds nothing in an old index looks at the flag; what it finds in one is there. -/
theorem Inv.testedItem (h : Inv orders numThreads s) (ht : t < numThreads) {head tail : BitVec 64}
    {m : RoutedMemory} (hpop : s.accesses.pop t = .loadHead tail)
    (hload : s.memory.loadAcquire (.book t) (.queue t .head) i = some (head, m)) :
    Inv orders numThreads (if SpscQueue.isEmpty head tail then ⟨s.accesses.goTo t .testDone, m⟩
      else ⟨s.accesses.setPop t (.copyOut tail), m⟩) := by
  obtain ⟨c, hrefines, -⟩ := h.refines
  have hsound := hrefines.pop t ht
  rw [hpop] at hsound
  obtain ⟨hpc, htail⟩ := hsound
  rw [← hrefines.consumers_eq] at hpc
  rw [← (hrefines.queues_eq t).2] at htail
  subst htail
  obtain ⟨rfl, hle, hseen, rfl⟩ := (h.shard t ht).fills.loadAcquire hload
  split
  · refine h.goTo ?_ rfl (fun hpc => by cases hpc) (fun hpc => by cases hpc) ?_ (.inr ⟨_, _, rfl⟩)
      fun hpc => by cases hpc
    · rw [RoutedRun.inHand, hpc]
    · rw [hpop]
      rfl
  · rename_i hnonempty
    have hlt := Nat.lt_of_not_le fun hempty => hnonempty ((Inv.isEmpty_position hle).mpr hempty)
    have hitem : ¬ SpscQueue.isEmpty (s.accesses.pipeline.queues t).head
        (s.accesses.pipeline.queues t).tail :=
      fun hempty => (hlt.trans_le hle).not_ge (SpscQueue.isEmpty_iff_toNat.mp hempty)
    have hstep : s.accesses.threadStep t =
        some (s.accesses.setPop t (.copyOut (s.accesses.pipeline.queues t).tail)) := by
      simp only [AccessRun.threadStep, hpop, if_neg hitem]
    refine h.setPop ht hstep ?_ (.inr ⟨_, _, rfl⟩) ?_
    · rw [hpop]
      rfl
    · rw [ItemSeen, AccessRun.setPop_self]
      exact hlt.trans_eq hseen.symm

/-- A thread may see the flag late. When it sees it, all is pushed. -/
theorem Inv.testedDone (h : Inv orders numThreads s) {done : BitVec 64}
    {m : RoutedMemory} (hpop : s.accesses.pop t = .outside)
    (hpc : (s.accesses.pipeline.consumers t).pc = .testDone)
    (hload : s.memory.loadAcquire (.book t) .done i = some (done, m)) :
    Inv orders numThreads
      ⟨s.accesses.goTo t (if done = 0 then .popping else .testAvailable), m⟩ := by
  obtain ⟨rfl, hle, hseen, rfl⟩ := h.flag.loadAcquire hload
  have hhand : RoutedRun.inHand (s.accesses.pipeline.consumers t) = [] := by
    rw [RoutedRun.inHand, hpc]
  have hemptying : (s.accesses.pop t).emptying = 0 := by
    rw [hpop]
    rfl
  split
  · exact h.goTo hhand rfl (fun hpc => by cases hpc) (fun hpc => by cases hpc) hemptying
      (.inr ⟨_, _, rfl⟩) fun hpc => by cases hpc
  · rename_i hraised
    have hpos : 1 ≤ i := Nat.one_le_iff_ne_zero.mpr fun hzero => hraised (hzero ▸ rfl)
    refine h.goTo hhand rfl (fun _ => ?_) (fun hpc => by cases hpc) hemptying (.inr ⟨_, _, rfl⟩)
      fun _ => hpos.trans_eq hseen.symm
    exact Bool.toNat_eq_one.mp (le_antisymm (Bool.toNat_le _) (hpos.trans hle))

theorem Inv.copiedOut (h : Inv orders numThreads s) (ht : t < numThreads) {tail : BitVec 64}
    (hpop : s.accesses.pop t = .copyOut tail) :
    Inv orders numThreads
      ⟨s.accesses.setPop t (.storeTail tail
          ((s.accesses.pipeline.queues t).copyOut queueExponent tail)),
        s.memory.event (.book t) (.queue t (.copiedOut (SpscQueue.slotOf queueExponent tail)))⟩ := by
  have hstep : s.accesses.threadStep t = some (s.accesses.setPop t (.storeTail tail
      ((s.accesses.pipeline.queues t).copyOut queueExponent tail))) := by
    simp only [AccessRun.threadStep, hpop]
  obtain ⟨c, hrefines, -⟩ := h.refines
  have htail := hrefines.tail_of_pop ht (.inl hpop)
  have hslot : SpscQueue.slotOf queueExponent tail =
      (s.accesses.pipeline.queues t).tail.toNat % 2 ^ queueExponent := by
    rw [SpscQueue.slotOf_eq (by decide), htail]
  refine h.moveThread (h.refines_thread ht hstep) rfl rfl (fun _ => rfl)
    (fun t' hne => ⟨s.accesses.setPop_of_ne hne _, rfl, rfl⟩) h.past.event
    (fun thread p => h.past.seen_le_event thread p)
    (h.flag.event_of_ne (RoutedPlace.queue_ne_done _ _).symm) (fun t' ht' => ?_)
    (itemSeen_of_pop (s.accesses.setPop_self t _) fun _ h => by cases h)
    fun hpc => (h.told t ht hpc).trans (h.past.seen_le_event _ _)
  by_cases hne : t' = t
  · subst hne
    have hkept := h.shard t' ht
    rw [hpop] at hkept
    rw [AccessRun.setPop_self, hslot]
    exact hkept.copyOut h.past
  · rw [AccessRun.setPop_of_ne _ hne]
    exact (h.shard t' ht').event_other h.past hne

theorem Inv.storedTail (h : Inv orders numThreads s) (ht : t < numThreads) {tail : BitVec 64}
    {order : DecodedOrder} (hpop : s.accesses.pop t = .storeTail tail order) :
    Inv orders numThreads
      ⟨{ s.accesses.setPop t .outside with
          pipeline := (s.accesses.pipeline.setQueue t
            { s.accesses.pipeline.queues t with tail := tail + 1 }).setConsumer t
              { s.accesses.pipeline.consumers t with pc := .applying order } },
        s.memory.storeRelease (.book t) (.queue t .tail) (tail + 1)⟩ := by
  have hstep : s.accesses.threadStep t = some { s.accesses.setPop t .outside with
      pipeline := (s.accesses.pipeline.setQueue t
        { s.accesses.pipeline.queues t with tail := tail + 1 }).setConsumer t
          { s.accesses.pipeline.consumers t with pc := .applying order } } := by
    simp only [AccessRun.threadStep, hpop]
  obtain ⟨c, hrefines, -⟩ := h.refines
  have htail := hrefines.tail_of_pop ht (.inr ⟨order, hpop⟩)
  refine h.moveThread (h.refines_thread ht hstep) rfl rfl
    ((Function.forall_update_iff s.accesses.pipeline.queues (p := fun t' queue =>
      queue.head = (s.accesses.pipeline.queues t').head)).mpr ⟨rfl, fun _ _ => rfl⟩)
    (fun t' hne => ⟨s.accesses.setPop_of_ne hne _, congrArg RoutedConsumer.pc
      (RoutedRun.setConsumer_of_ne hne _), congrArg SpscQueue.tail (Function.update_of_ne hne _ _)⟩)
    h.past.storeRelease (fun thread p => h.past.seen_le_storeRelease thread p)
    (h.flag.storeRelease_of_ne (RoutedPlace.queue_ne_done _ _).symm) (fun t' ht' => ?_)
    (itemSeen_of_pop (s.accesses.setPop_self t _) fun _ h => by cases h) fun hpc => ?_
  · change ShardMemory _ _ _ _ (Function.update s.accesses.pipeline.queues t _ t').tail.toNat
      ((s.accesses.setPop t .outside).pop t').emptying
    by_cases hne : t' = t
    · subst hne
      have hkept := h.shard t' ht
      rw [hpop] at hkept
      rw [AccessRun.setPop_self, Function.update_self]
      dsimp only
      rw [hrefines.toNat_tail_succ hpop ht]
      exact hkept.storeTail h.past (htail ▸ SpscQueue.succ_eq_position _)
    · rw [AccessRun.setPop_of_ne _ hne, Function.update_of_ne hne]
      exact (h.shard t' ht').storeRelease_other h.past hne
  · have hpc' := hpc.symm.trans (congrArg RoutedConsumer.pc (RoutedRun.setConsumer_self _ _ _))
    cases hpc'

/-- A thread leaves when the count is zero, which it has taken of all that was pushed. -/
theorem Inv.counted (h : Inv orders numThreads s) (ht : t < numThreads) {head tail : BitVec 64}
    {m : RoutedMemory} (hpop : s.accesses.pop t = .loadTail head)
    (hload : s.memory.loadRelaxed (.book t) (.queue t .tail) i = some (tail, m)) :
    Inv orders numThreads (if head - tail = 0 then
        ⟨{ s.accesses.setPop t .outside with
            pipeline := { s.accesses.pipeline.setConsumer t
                { s.accesses.pipeline.consumers t with pc := .exited } with
              threadMessageCounts := Function.update s.accesses.pipeline.threadMessageCounts t
                (s.accesses.pipeline.consumers t).localCount } },
          m⟩
      else ⟨s.accesses.goTo t .popping, m⟩) := by
  obtain ⟨rfl, rfl⟩ := h.loadTail ht hload
  obtain ⟨c, hrefines, -⟩ := h.refines
  have hsound := hrefines.pop t ht
  rw [hpop] at hsound
  obtain ⟨hpc, -⟩ := hsound
  rw [← hrefines.consumers_eq] at hpc
  have hemptying : (s.accesses.pop t).emptying = 0 := by
    rw [hpop]
    rfl
  split
  · rename_i hzero
    have hstep : s.accesses.threadStep t = some { s.accesses.setPop t .outside with
        pipeline := { s.accesses.pipeline.setConsumer t
            { s.accesses.pipeline.consumers t with pc := .exited } with
          threadMessageCounts := Function.update s.accesses.pipeline.threadMessageCounts t
            (s.accesses.pipeline.consumers t).localCount } } := by
      unfold AccessRun.threadStep
      dsimp only
      rw [hpop]
      exact if_pos (beq_iff_eq.mpr hzero)
    have hself := s.accesses.setPop_self t .outside
    refine h.loadThread (h.refines_thread ht hstep) rfl rfl rfl
      (fun t' hne => ⟨s.accesses.setPop_of_ne hne _, RoutedRun.setConsumer_of_ne hne _⟩)
      ((congrArg PopAccess.emptying hself).trans hemptying.symm) (.inl rfl)
      (itemSeen_of_pop hself fun _ h => by cases h) fun hpc => ?_
    have hpc' := hpc.symm.trans (congrArg RoutedConsumer.pc (RoutedRun.setConsumer_self _ _ _))
    cases hpc'
  · refine h.goTo ?_ rfl (fun hpc => by cases hpc) (fun hpc => by cases hpc) hemptying (.inl rfl)
      fun hpc => by cases hpc
    rw [RoutedRun.inHand, hpc]

/-- A call of `try_pop` loads the read position that the thread has stored last. -/
theorem Inv.calledPop (h : Inv orders numThreads s) (ht : t < numThreads) {tail : BitVec 64}
    {m : RoutedMemory} (hpop : s.accesses.pop t = .outside)
    (hpc : (s.accesses.pipeline.consumers t).pc = .popping)
    (hload : s.memory.loadRelaxed (.book t) (.queue t .tail) i = some (tail, m)) :
    Inv orders numThreads ⟨s.accesses.setPop t (.loadHead tail), m⟩ := by
  obtain ⟨rfl, rfl⟩ := h.loadTail ht hload
  have hstep : s.accesses.threadStep t =
      some (s.accesses.setPop t (.loadHead (s.accesses.pipeline.queues t).tail)) := by
    simp only [AccessRun.threadStep, hpop, hpc]
  refine h.setPop ht hstep ?_ (.inl rfl)
    (itemSeen_of_pop (s.accesses.setPop_self t _) fun _ h => by cases h)
  rw [hpop]
  rfl

/-- A call of `available` loads the last write position. -/
theorem Inv.calledAvailable (h : Inv orders numThreads s) (ht : t < numThreads) {head : BitVec 64}
    {m : RoutedMemory} (hpop : s.accesses.pop t = .outside)
    (hpc : (s.accesses.pipeline.consumers t).pc = .testAvailable)
    (hload : s.memory.loadAcquire (.book t) (.queue t .head) i = some (head, m)) :
    Inv orders numThreads ⟨s.accesses.setPop t (.loadTail head), m⟩ := by
  obtain ⟨rfl, rfl⟩ := (h.shard t ht).fills.loadAcquire_told (h.shard t ht).told (h.told t ht hpc) hload
  rw [← SpscQueue.eq_position]
  have hstep : s.accesses.threadStep t =
      some (s.accesses.setPop t (.loadTail (s.accesses.pipeline.queues t).head)) := by
    simp only [AccessRun.threadStep, hpop, hpc]
  refine h.setPop ht hstep ?_ (.inr ⟨_, _, rfl⟩)
    (itemSeen_of_pop (s.accesses.setPop_self t _) fun _ h => by cases h)
  rw [hpop]
  rfl

theorem Inv.applied (h : Inv orders numThreads s) (ht : t < numThreads) {order : DecodedOrder}
    {pipeline : RoutedRun} (hpop : s.accesses.pop t = .outside)
    (hpc : (s.accesses.pipeline.consumers t).pc = .applying order)
    (hthread : s.accesses.pipeline.threadStep t = some pipeline) :
    Inv orders numThreads ⟨{ s.accesses with pipeline := pipeline }, s.memory⟩ := by
  have hstep : s.accesses.threadStep t = some { s.accesses with pipeline := pipeline } := by
    simp only [AccessRun.threadStep, hpop, hpc, hthread, Option.map_some]
  unfold RoutedRun.threadStep at hthread
  dsimp only at hthread
  rw [hpc] at hthread
  obtain rfl := Option.some.inj hthread
  refine h.loadThread (h.refines_thread ht hstep) rfl rfl rfl
    (fun t' hne => ⟨rfl, RoutedRun.setConsumer_of_ne hne _⟩) rfl (.inl rfl)
    (itemSeen_of_pop hpop fun _ h => by cases h) fun hpc => ?_
  have hpc' := hpc.symm.trans (congrArg RoutedConsumer.pc (RoutedRun.setConsumer_self _ _ _))
  cases hpc'

theorem Inv.threadStep (h : Inv orders numThreads s) (ht : t < numThreads)
    (hstep : s.threadStep t i = some s') : Inv orders numThreads s' := by
  unfold OrderedRoutedRun.threadStep at hstep
  dsimp only at hstep
  cases hpop : s.accesses.pop t with
  | outside =>
    simp only [hpop] at hstep
    cases hpc : (s.accesses.pipeline.consumers t).pc with
    | popping =>
      simp only [hpc] at hstep
      obtain ⟨⟨tail, memory⟩, hload, rfl⟩ := Option.map_eq_some_iff.mp hstep
      exact h.calledPop ht hpop hpc hload
    | testDone =>
      simp only [hpc] at hstep
      obtain ⟨⟨done, memory⟩, hload, rfl⟩ := Option.map_eq_some_iff.mp hstep
      exact h.testedDone hpop hpc hload
    | testAvailable =>
      simp only [hpc] at hstep
      obtain ⟨⟨head, memory⟩, hload, rfl⟩ := Option.map_eq_some_iff.mp hstep
      exact h.calledAvailable ht hpop hpc hload
    | applying order =>
      simp only [hpc] at hstep
      obtain ⟨pipeline, hthread, rfl⟩ := Option.map_eq_some_iff.mp hstep
      exact h.applied ht hpop hpc hthread
    | exited =>
      simp only [hpc, RoutedRun.threadStep, Option.map_none] at hstep
      contradiction
  | loadHead tail =>
    simp only [hpop] at hstep
    obtain ⟨⟨head, memory⟩, hload, rfl⟩ := Option.map_eq_some_iff.mp hstep
    exact h.testedItem ht hpop hload
  | copyOut tail =>
    simp only [hpop] at hstep
    exact Option.some.inj hstep ▸ h.copiedOut ht hpop
  | storeTail tail order =>
    simp only [hpop] at hstep
    exact Option.some.inj hstep ▸ h.storedTail ht hpop
  | loadTail head =>
    simp only [hpop] at hstep
    obtain ⟨⟨tail, memory⟩, hload, rfl⟩ := Option.map_eq_some_iff.mp hstep
    exact h.counted ht hpop hload

theorem Inv.step (h : Inv orders numThreads s) (hthreads : 1 ≤ numThreads) {a : RoutedAction × ℕ}
    (hstep : s.step orders numThreads a = some s') : Inv orders numThreads s' := by
  obtain ⟨action, i⟩ := a
  cases action with
  | route => exact h.routeStep hthreads hstep
  | thread t =>
    obtain ⟨ht, hthread⟩ := Option.ite_none_right_eq_some.mp hstep
    exact h.threadStep ht hthread

/-! ### Order -/

/-- Where a push uses a slot again, the index that the producer has loaded tells of its last pop. -/
theorem Inv.copyIn (h : Inv orders numThreads s) {call : PushOrder} {head : BitVec 64}
    (hpush : s.accesses.push = .copyIn call head) :
    s.memory.Knows .producer
        (.queue call.shard (.copiedIn (SpscQueue.slotOf queueExponent head))) ∧
      s.memory.Knows .producer
        (.queue call.shard (.copiedOut (SpscQueue.slotOf queueExponent head))) := by
  obtain ⟨c, hrefines, hbatched⟩ := h.refines
  have hsound := hrefines.push
  have hroom := h.room
  rw [hpush] at hsound
  rw [RoomSeen, hpush] at hroom
  have ht := hbatched.shard_lt hsound.1
  have hhead : head = (s.accesses.pipeline.queues call.shard).head :=
    hsound.2.1.trans (hrefines.queues_eq _).1.symm
  rw [SpscQueue.slotOf_eq (by decide), hhead]
  refine ⟨(h.shard _ ht).fills.own_access _, (h.shard _ ht).empties.knows le_rfl fun j hj hlt => ?_⟩
  exact RingWindow.slot_ne (hlt.trans_le (hrefines.emptying_le ht))
    (hroom.trans_le (Nat.add_le_add_right hj _))

theorem Inv.copyOut (h : Inv orders numThreads s) (ht : t < numThreads) {tail : BitVec 64}
    (hpop : s.accesses.pop t = .copyOut tail) :
    s.memory.Knows (.book t) (.queue t (.copiedIn (SpscQueue.slotOf queueExponent tail))) := by
  obtain ⟨c, hrefines, -⟩ := h.refines
  have htail := hrefines.tail_of_pop ht (.inl hpop)
  have hitem := h.item t ht
  rw [ItemSeen, hpop] at hitem
  rw [SpscQueue.slotOf_eq (by decide), htail]
  refine (h.shard t ht).fills.knows le_rfl fun j hj hlt => (RingWindow.slot_ne ?_ ?_).symm
  · exact hitem.trans_le hj
  · exact hlt.trans_le (hrefines.filling_le ht)

/-- Whatever old indices and flags the threads load, the memory orders of the routed pipeline
suffice: every order is applied by the thread of its shard before that thread leaves, and no copy of
an order overlaps another in its slot. -/
theorem routed_memory_orders_suffice (hthreads : 1 ≤ numThreads) {actions : List (RoutedAction × ℕ)}
    (hrun : run (OrderedRoutedRun.step orders numThreads) start actions = some s) :
    Suffices orders numThreads s := by
  have h : Inv orders numThreads s :=
    run_invariant (fun _ _ _ h hstep => h.step hthreads hstep) (start_inv orders numThreads) hrun
  obtain ⟨c, hrefines, -⟩ := h.refines
  exact ⟨hrefines.delivers hthreads, fun call head hpush => h.copyIn hpush,
    fun t ht tail hpop => h.copyOut ht hpop⟩

/-- The stores that a thread loads: first an old index and an old flag, then an old index before the
flag, and after it the last ones. -/
def oldLoads : List ℕ := [0, 0, 0, 0, 0, 1, 1, 0, 0, 1, 0, 0, 0, 1, 1, 1, 1, 1]

/-- The producer pushes both orders and sets the flag, and then each thread takes its steps. -/
def oldLoadsRun : List (RoutedAction × ℕ) :=
  List.replicate 14 (.route, 0) ++ oldLoads.map (.thread 1, ·) ++ oldLoads.map (.thread 0, ·)

/-- Both threads leave their loops, and together they count both orders. -/
theorem oldLoads_suffice :
    ∃ s, run (OrderedRoutedRun.step RoutedRun.twoOrders 2) start oldLoadsRun = some s ∧
      ∑ t ∈ Finset.range 2, s.accesses.pipeline.threadMessageCounts t = 2 := by
  have hends : (run (OrderedRoutedRun.step RoutedRun.twoOrders 2) start oldLoadsRun).any
      (fun s => ∀ t < 2, (s.accesses.pipeline.consumers t).pc = .exited) = true := by decide +kernel
  obtain ⟨s, hrun, hpc⟩ := (Option.any_eq_true _ _).mp hends
  exact ⟨s, hrun, (routed_memory_orders_suffice (by decide) hrun).delivers.counts
    (of_decide_eq_true hpc)⟩

end OrderedRoutedRun

end NanoRing
