import Mathlib.Data.Nat.Count
import NanoRing.Common.MemoryOrder

/-!
# Publishing with release

A thread accesses the slots of its positions in order, one after the other, and stores with release
how many positions are done, after each or after several. Whoever loads a store with acquire, old or
new, knows of the accesses that it stands for. A flag that is raised once tells of the last store.
-/

namespace MemoryOrder

/-- How many of the positions below `n` are at a slot. -/
def laps {X : Type*} [DecidableEq X] (slotOf : ℕ → X) (x : X) (n : ℕ) : ℕ :=
  Nat.count (fun j => slotOf j = x) n

section Publishes

variable {X : Type*} [DecidableEq X] {slotOf : ℕ → X} {x : X}

theorem laps_mono (slotOf : ℕ → X) (x : X) : Monotone (laps slotOf x) := Nat.count_monotone _

theorem laps_succ (n : ℕ) :
    laps slotOf x (n + 1) = laps slotOf x n + if slotOf n = x then 1 else 0 := Nat.count_succ _ n

/-- Positions at other slots do not count. -/
theorem laps_le_of_free {k n : ℕ} (hfree : ∀ j, k ≤ j → j < n → slotOf j ≠ x) :
    laps slotOf x n ≤ laps slotOf x k := by
  induction n with
  | zero => exact laps_mono slotOf x (Nat.zero_le k)
  | succ n ih =>
    by_cases hk : k ≤ n
    · rw [laps_succ, if_neg (hfree n hk (Nat.lt_succ_self n)), Nat.add_zero]
      exact ih fun j hj hjn => hfree j hj (Nat.lt_succ_of_lt hjn)
    · exact laps_mono slotOf x (Nat.lt_of_not_le hk)

/-- The stores of an object, when `v` is the one after the first `stored`. -/
def tellNext {V : Type*} (told : ℕ → V) (stored : ℕ) (v : V) (k : ℕ) : V :=
  if k ≤ stored then told k else v

theorem tellNext_of_le {V : Type*} {told : ℕ → V} {stored k : ℕ} {v : V} (hk : k ≤ stored) :
    tellNext told stored v k = told k := if_pos hk

theorem tellNext_succ {V : Type*} (told : ℕ → V) (stored : ℕ) (v : V) :
    tellNext told stored v (stored + 1) = v := if_neg (Nat.not_succ_le_self stored)

theorem tellNext_monotone {told : ℕ → ℕ} {stored v : ℕ} (htold : Monotone told)
    (hv : told stored ≤ v) : Monotone (tellNext told stored v) := by
  intro j k hjk
  unfold tellNext
  split
  · rename_i hj
    split
    · exact htold hjk
    · exact (htold hj).trans hv
  · rename_i hj
    rw [if_neg fun hk => hj (hjk.trans hk)]

variable {T P V : Type*} {m m' : Memory T P V} {t t' : T} {index p : P} {access : X → P}
  {encode : ℕ → V} {stored accessed i : ℕ} {v : V}

/-- Thread `t` has stored `encode 1` up to `encode stored`, one after the other. -/
structure Counts (m : Memory T P V) (t : T) (index : P) (encode : ℕ → V) (stored : ℕ) : Prop where
  index_now : m.now index = stored
  stores_eq : ∀ i ≤ stored,
    (m.stores index i).value = encode i ∧ (m.stores index i).view index = i
  own_index : m.Knows t index

/-- Thread `t` has made its accesses for the positions below `accessed`. Whoever knows of `k` stores of
the index knows of the accesses for the positions below `told k`. -/
structure Tracks (m : Memory T P V) (t : T) (index : P) (access : X → P) (slotOf : ℕ → X)
    (told : ℕ → ℕ) (accessed : ℕ) : Prop where
  access_now : ∀ x, m.now (access x) = laps slotOf x accessed
  carried : ∀ x, m.Everywhere (Carries index (access x) fun k => laps slotOf x (told k))
  own_access : ∀ x, m.Knows t (access x)

/-- Thread `t` publishes each position on its own: the positions below `stored` are done. -/
structure Publishes (m : Memory T P V) (t : T) (index : P) (access : X → P) (slotOf : ℕ → X)
    (encode : ℕ → V) (stored accessed : ℕ) : Prop extends Counts m t index encode stored,
    Tracks m t index access slotOf id accessed

theorem start_counts {initial : P → V} (hinitial : initial index = encode 0) :
    Counts (Memory.start initial) t index encode 0 where
  index_now := rfl
  stores_eq := fun i hi => by
    obtain rfl := Nat.le_zero.mp hi
    exact ⟨hinitial, rfl⟩
  own_index := le_rfl

theorem start_tracks {initial : P → V} {told : ℕ → ℕ} (htold : told 0 = 0) :
    Tracks (Memory.start initial) t index access slotOf told 0 where
  access_now := fun _ => (Nat.count_zero _).symm
  carried := fun x => Memory.start_everywhere initial
    ((congrArg (laps slotOf x) htold).trans (Nat.count_zero _)).le
  own_access := fun _ => le_rfl

theorem start_publishes {initial : P → V} (hinitial : initial index = encode 0) :
    Publishes (Memory.start initial) t index access slotOf encode 0 0 where
  toCounts := start_counts hinitial
  toTracks := start_tracks rfl

namespace Counts

/-- The counting thread loads what it has stored last. -/
theorem loadRelaxed [DecidableEq T] [DecidableEq P] (h : Counts m t index encode stored)
    (hload : m.loadRelaxed t index i = some (v, m')) : v = encode stored ∧ m' = m := by
  obtain ⟨hvalue, hmemory⟩ := h.own_index.loadRelaxed hload
  rw [h.index_now, (h.stores_eq stored le_rfl).1] at hvalue
  exact ⟨hvalue, hmemory⟩

/-- Another thread loads some store, old or new, and then knows of all before it. -/
theorem loadAcquire [DecidableEq T] (h : Counts m t index encode stored)
    (hload : m.loadAcquire t' index i = some (v, m')) :
    v = encode i ∧ i ≤ stored ∧ m'.seen t' index = i ∧ m' = m.acquire t' index i := by
  obtain ⟨hmay, rfl, rfl⟩ := Memory.loadAcquire_eq_some hload
  obtain ⟨hseen, hnow⟩ := Memory.mayLoad_iff.mp hmay
  have hle : i ≤ stored := h.index_now ▸ hnow
  obtain ⟨hvalue, hview⟩ := h.stores_eq i hle
  have hself : (m.acquire t' index i).seen t' = m.seen t' ⊔ (m.stores index i).view :=
    Function.update_self _ _ _
  refine ⟨hvalue, hle, ?_, rfl⟩
  rw [hself, Pi.sup_apply, hview]
  exact max_eq_right hseen

theorem acquire [DecidableEq T] (h : Counts m t index encode stored) :
    Counts (m.acquire t' p i) t index encode stored where
  index_now := h.index_now
  stores_eq := h.stores_eq
  own_index := h.own_index.acquire

/-- What later stores would be does not matter yet. -/
theorem congr (h : Counts m t index encode stored) {encode' : ℕ → V}
    (hencode : ∀ k ≤ stored, encode' k = encode k) : Counts m t index encode' stored where
  index_now := h.index_now
  stores_eq := fun i hi => by
    rw [hencode i hi]
    exact h.stores_eq i hi
  own_index := h.own_index

variable [DecidableEq T] [DecidableEq P]

theorem observe (h : Counts m t index encode stored) (hload : m.mayLoad t' p i) :
    Counts (m.observe t' p i) t index encode stored where
  index_now := h.index_now
  stores_eq := h.stores_eq
  own_index := h.own_index.trans (Memory.seen_le_observe hload t index)

/-- Events at other places do not matter. -/
theorem event_of_ne (h : Counts m t index encode stored) (hindex : index ≠ p) :
    Counts (m.event t' p) t index encode stored where
  index_now := (Memory.event_now_of_ne hindex).trans h.index_now
  stores_eq := h.stores_eq
  own_index := h.own_index.event_of_ne hindex

theorem storeRelease_of_ne (h : Counts m t index encode stored) (hindex : index ≠ p) :
    Counts (m.storeRelease t' p v) t index encode stored where
  index_now := (Memory.storeRelease_now_of_ne hindex).trans h.index_now
  stores_eq := by
    rw [Memory.storeRelease_stores_of_ne hindex]
    exact h.stores_eq
  own_index := h.own_index.storeRelease_of_ne hindex

theorem store_next (h : Counts m t index encode stored) (hvalue : v = encode (stored + 1)) :
    Counts (m.storeRelease t index v) t index encode (stored + 1) where
  index_now := Memory.storeRelease_now_self.trans (congrArg Nat.succ h.index_now)
  stores_eq := fun i hi => by
    rw [Memory.storeRelease_stores_self, h.index_now]
    split
    · rename_i heq
      subst heq
      exact ⟨hvalue, Function.update_self _ _ _⟩
    · rename_i hne
      exact h.stores_eq i (Nat.le_of_lt_succ (hi.lt_of_ne hne))
  own_index := Memory.knows_storeRelease

end Counts

namespace Tracks

variable {told told' : ℕ → ℕ}

/-- A thread that has learnt of `k` positions knows of every access of a slot at which no later
position is. -/
theorem knows (h : Tracks m t index access slotOf told accessed)
    {k : ℕ} (hk : k ≤ told (m.seen t' index))
    (hfree : ∀ j, k ≤ j → j < accessed → slotOf j ≠ x) : m.Knows t' (access x) :=
  calc m.now (access x) = laps slotOf x accessed := h.access_now x
    _ ≤ laps slotOf x k := laps_le_of_free hfree
    _ ≤ laps slotOf x (told (m.seen t' index)) := laps_mono slotOf x hk
    _ ≤ m.seen t' (access x) := (h.carried x).seen t'

/-- What later stores would tell does not matter yet. -/
theorem congr (h : Tracks m t index access slotOf told accessed) (hpast : m.Past)
    (htold : ∀ k ≤ m.now index, told' k = told k) :
    Tracks m t index access slotOf told' accessed where
  access_now := h.access_now
  carried := fun x => by
    have hmem : ∀ w ≤ m.now, w ∈ Carries index (access x) (fun k => laps slotOf x (told k)) →
        w ∈ Carries index (access x) fun k => laps slotOf x (told' k) := by
      intro w hw hcarried
      change laps slotOf x (told' (w index)) ≤ w (access x)
      rw [htold _ (hw index)]
      exact hcarried
    exact ⟨fun t' => hmem _ (hpast.seen t') ((h.carried x).seen t'),
      fun p' i => hmem _ (hpast.stores p' i) ((h.carried x).stores p' i)⟩
  own_access := h.own_access

theorem acquire [DecidableEq T] (h : Tracks m t index access slotOf told accessed)
    (htold : Monotone told) : Tracks (m.acquire t' p i) t index access slotOf told accessed where
  access_now := h.access_now
  carried := fun x => (h.carried x).acquire (supClosed_carries _ _ ((laps_mono slotOf x).comp htold))
  own_access := fun x => (h.own_access x).acquire

variable [DecidableEq T] [DecidableEq P]

theorem observe (h : Tracks m t index access slotOf told accessed)
    (hload : m.mayLoad t' p i) (hindex : index ≠ p) :
    Tracks (m.observe t' p i) t index access slotOf told accessed where
  access_now := h.access_now
  carried := fun x => (h.carried x).observe (mem_carries_update ((h.carried x).seen t') hindex.symm
    (Memory.mayLoad_iff.mp hload).1)
  own_access := fun x => (h.own_access x).trans (Memory.seen_le_observe hload t _)

theorem event_of_ne (h : Tracks m t index access slotOf told accessed)
    (hpast : m.Past) (hindex : index ≠ p) (haccess : ∀ x, access x ≠ p) :
    Tracks (m.event t' p) t index access slotOf told accessed where
  access_now := fun x => (Memory.event_now_of_ne (haccess x)).trans (h.access_now x)
  carried := fun x => (h.carried x).event (mem_carries_update ((h.carried x).seen t') hindex.symm
    ((hpast.seen t' p).trans (Nat.le_succ _)))
  own_access := fun x => (h.own_access x).event_of_ne (haccess x)

theorem storeRelease_of_ne (h : Tracks m t index access slotOf told accessed)
    (hpast : m.Past) (hindex : index ≠ p) (haccess : ∀ x, access x ≠ p) :
    Tracks (m.storeRelease t' p v) t index access slotOf told accessed where
  access_now := fun x => (Memory.storeRelease_now_of_ne (haccess x)).trans (h.access_now x)
  carried := fun x => ((h.event_of_ne hpast hindex haccess).carried x).storeRelease
  own_access := fun x => (h.own_access x).storeRelease_of_ne (haccess x)

/-- The access for the next position. -/
theorem access_next (h : Tracks m t index access slotOf told accessed)
    (hpast : m.Past) (hinj : Function.Injective access)
    (hindex : ∀ x, access x ≠ index) :
    Tracks (m.event t (access (slotOf accessed))) t index access slotOf told (accessed + 1) where
  access_now := fun x => by
    rw [laps_succ, ← h.access_now x]
    split
    · rename_i hx
      subst hx
      exact Memory.event_now_self
    · rename_i hx
      exact Memory.event_now_of_ne fun heq => hx (hinj heq).symm
  carried := fun x => (h.carried x).event (mem_carries_update ((h.carried x).seen t) (hindex _)
    ((hpast.seen t _).trans (Nat.le_succ _)))
  own_access := fun x => (h.own_access x).event

/-- The next store of the index, after the accesses that it tells of. -/
theorem store (h : Tracks m t index access slotOf told accessed)
    (hindex : ∀ x, access x ≠ index) (hdone : told (m.now index + 1) ≤ accessed) :
    Tracks (m.storeRelease t index v) t index access slotOf told accessed where
  access_now := fun x => (Memory.storeRelease_now_of_ne (hindex x)).trans (h.access_now x)
  carried := fun x => by
    refine ((h.carried x).event ?_).storeRelease
    -- the thread knows of all its accesses, those that it tells of among them
    have hknown := (h.own_access x).trans' ((h.access_now x).symm ▸ laps_mono slotOf x hdone)
    change laps slotOf x (told (Function.update (m.seen t) index (m.now index + 1) index)) ≤
      Function.update (m.seen t) index (m.now index + 1) (access x)
    rw [Function.update_self, Function.update_of_ne (hindex x)]
    exact hknown
  own_access := fun x => (h.own_access x).event

end Tracks

namespace Publishes

theorem acquire [DecidableEq T]
    (h : Publishes m t index access slotOf encode stored accessed) :
    Publishes (m.acquire t' p i) t index access slotOf encode stored accessed where
  toCounts := h.toCounts.acquire
  toTracks := h.toTracks.acquire monotone_id

variable [DecidableEq T] [DecidableEq P]

theorem observe (h : Publishes m t index access slotOf encode stored accessed)
    (hload : m.mayLoad t' p i) (hindex : index ≠ p) :
    Publishes (m.observe t' p i) t index access slotOf encode stored accessed where
  toCounts := h.toCounts.observe hload
  toTracks := h.toTracks.observe hload hindex

theorem event_of_ne (h : Publishes m t index access slotOf encode stored accessed)
    (hpast : m.Past) (hindex : index ≠ p) (haccess : ∀ x, access x ≠ p) :
    Publishes (m.event t' p) t index access slotOf encode stored accessed where
  toCounts := h.toCounts.event_of_ne hindex
  toTracks := h.toTracks.event_of_ne hpast hindex haccess

theorem storeRelease_of_ne (h : Publishes m t index access slotOf encode stored accessed)
    (hpast : m.Past) (hindex : index ≠ p) (haccess : ∀ x, access x ≠ p) :
    Publishes (m.storeRelease t' p v) t index access slotOf encode stored accessed where
  toCounts := h.toCounts.storeRelease_of_ne hindex
  toTracks := h.toTracks.storeRelease_of_ne hpast hindex haccess

/-- The access for the next position. -/
theorem access_next (h : Publishes m t index access slotOf encode stored accessed)
    (hpast : m.Past) (hinj : Function.Injective access)
    (hindex : ∀ x, access x ≠ index) :
    Publishes (m.event t (access (slotOf accessed))) t index access slotOf encode stored
      (accessed + 1) where
  toCounts := h.toCounts.event_of_ne (hindex _).symm
  toTracks := h.toTracks.access_next hpast hinj hindex

/-- The store of the next index, after its access. -/
theorem store_next (h : Publishes m t index access slotOf encode stored accessed)
    (hindex : ∀ x, access x ≠ index) (hdone : stored + 1 ≤ accessed)
    (hvalue : v = encode (stored + 1)) :
    Publishes (m.storeRelease t index v) t index access slotOf encode (stored + 1) accessed where
  toCounts := h.toCounts.store_next hvalue
  toTracks := h.toTracks.store hindex ((congrArg Nat.succ h.index_now).trans_le hdone)

end Publishes

end Publishes

/-! ### A flag that is raised once -/

/-- Whoever has seen the flag raised knows of `n` events at a place. -/
def Tells {P : Type*} (flag p : P) (n : ℕ) : Set (View P) :=
  Carries flag p fun raised => if raised = 0 then 0 else n

section Tells

variable {T P V : Type*} {m m' : Memory T P V} {t t' : T} {flag p q : P} {n i stored : ℕ} {v : V}
  {encode : ℕ → V}

theorem supClosed_tells (flag p : P) (n : ℕ) : SupClosed (Tells flag p n) := by
  refine supClosed_carries flag p fun a b hab => ?_
  split
  · exact Nat.zero_le _
  · rename_i ha
    rw [if_neg ((Nat.pos_of_ne_zero ha).trans_le hab).ne']

/-- A flag that is not raised tells anything. -/
theorem Memory.Past.tells (h : m.Past) (hnone : m.now flag = 0) :
    m.Everywhere (Tells flag p n) := h.everywhere_carries hnone (if_pos rfl)

variable [DecidableEq T]

/-- A thread that has seen the flag loads the last store. -/
theorem Counts.loadAcquire_told (h : Counts m t p encode stored)
    (htold : m.Everywhere (Tells flag p stored)) (hseen : 1 ≤ m.seen t' flag)
    (hload : m.loadAcquire t' p i = some (v, m')) :
    v = encode stored ∧ m' = m.acquire t' p i := by
  obtain ⟨hmay, -, -⟩ := Memory.loadAcquire_eq_some hload
  obtain ⟨rfl, hle, -, hmemory⟩ := h.loadAcquire hload
  have hknown : (if m.seen t' flag = 0 then 0 else stored) ≤ m.seen t' p := htold.seen t'
  rw [if_neg (Nat.one_le_iff_ne_zero.mp hseen)] at hknown
  exact ⟨congrArg encode (le_antisymm hle (hknown.trans (Memory.mayLoad_iff.mp hmay).1)), hmemory⟩

variable [DecidableEq P]

theorem Memory.Everywhere.tells_observe (h : m.Everywhere (Tells flag p n))
    (hload : m.mayLoad t q i) (hne : q ≠ flag) : (m.observe t q i).Everywhere (Tells flag p n) :=
  h.observe (mem_carries_update (h.seen t) hne (Memory.mayLoad_iff.mp hload).1)

theorem Memory.Everywhere.tells_event (h : m.Everywhere (Tells flag p n)) (hpast : m.Past)
    (hne : q ≠ flag) : (m.event t q).Everywhere (Tells flag p n) :=
  h.event (mem_carries_update (h.seen t) hne ((hpast.seen t q).trans (Nat.le_succ _)))

/-- The thread that raises the flag tells what it knows itself. -/
theorem Memory.Everywhere.tells_raise (h : m.Everywhere (Tells flag p n)) (hne : p ≠ flag)
    (hknown : n ≤ m.seen t p) : (m.storeRelease t flag v).Everywhere (Tells flag p n) := by
  refine (h.event ?_).storeRelease
  change (if Function.update (m.seen t) flag (m.now flag + 1) flag = 0 then 0 else n) ≤
    Function.update (m.seen t) flag (m.now flag + 1) p
  rw [Function.update_self, Function.update_of_ne hne, if_neg (Nat.succ_ne_zero _)]
  exact hknown

end Tells

end MemoryOrder
