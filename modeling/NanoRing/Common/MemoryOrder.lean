import Mathlib.Order.Lattice.Nat
import Mathlib.Order.SupClosed

/-!
# Release and acquire

Threads share atomic objects, which they load and store, and plain ones. A load may return an old
store: any that the thread does not know to be overwritten. A thread knows what happens before its
next step, that is its own steps, and all that another thread knew when it stored with release what
this thread has loaded with acquire. An access of a plain object is ordered after earlier accesses
when its thread knows of all of them. Each atomic object is stored by one thread only, or changed
only by exchanges, which act on the last store, so that its stores are in the order in which they
are made.
-/

namespace MemoryOrder

/-- How many of the events at each place are known. -/
abbrev View (P : Type*) := P → ℕ

/-- A value with what its thread knew when it was stored, the store included. -/
structure Stored (P V : Type*) where
  value : V
  view : View P

/-- The number of events at each place, what each thread knows of them, and for an atomic object
the value after each number of stores. The places of a plain object are the kinds of accesses. -/
structure Memory (T P V : Type*) where
  now : View P
  seen : T → View P
  stores : P → ℕ → Stored P V

namespace Memory

variable {T P V : Type*} {m m' : Memory T P V} {t t' : T} {p p' q : P} {i : ℕ} {v : V}

def start (initial : P → V) : Memory T P V where
  now := ⊥
  seen := fun _ => ⊥
  stores := fun p _ => ⟨initial p, ⊥⟩

/-- A thread knows of every event at a place. -/
def Knows (m : Memory T P V) (t : T) (p : P) : Prop := m.now p ≤ m.seen t p

/-- What a thread knows, and what was known at any store, is in a set of views. -/
structure Everywhere (K : Set (View P)) (m : Memory T P V) : Prop where
  seen : ∀ t, m.seen t ∈ K
  stores : ∀ p i, (m.stores p i).view ∈ K

/-- Nothing is known that has not happened. -/
def Past (m : Memory T P V) : Prop := m.Everywhere (Set.Iic m.now)

theorem start_everywhere (initial : P → V) {K : Set (View P)} (hbot : ⊥ ∈ K) :
    (start initial : Memory T P V).Everywhere K where
  seen := fun _ => hbot
  stores := fun _ _ => hbot

theorem start_past (initial : P → V) : (start initial : Memory T P V).Past :=
  start_everywhere initial (Set.mem_Iic.mpr le_rfl)

/-- A thread may load a store that it does not know to be overwritten. -/
def mayLoad (m : Memory T P V) (t : T) (p : P) (i : ℕ) : Bool := m.seen t p ≤ i && i ≤ m.now p

theorem mayLoad_iff : m.mayLoad t p i = true ↔ m.seen t p ≤ i ∧ i ≤ m.now p := by
  rw [mayLoad, Bool.and_eq_true, decide_eq_true_iff, decide_eq_true_iff]

/-- A thread that knows of every store can only load the last one. -/
theorem Knows.eq_of_mayLoad (h : m.Knows t p) (hload : m.mayLoad t p i) : i = m.now p :=
  le_antisymm (mayLoad_iff.mp hload).2 (h.trans (mayLoad_iff.mp hload).1)

variable [DecidableEq T]

/-- A thread learns what was known at a store. -/
def acquire (m : Memory T P V) (t : T) (p : P) (i : ℕ) : Memory T P V :=
  { m with seen := Function.update m.seen t (m.seen t ⊔ (m.stores p i).view) }

/-- Load a store with acquire. -/
def loadAcquire (m : Memory T P V) (t : T) (p : P) (i : ℕ) : Option (V × Memory T P V) :=
  if m.mayLoad t p i then some ((m.stores p i).value, m.acquire t p i) else none

theorem loadAcquire_eq_some (h : m.loadAcquire t p i = some (v, m')) :
    m.mayLoad t p i ∧ v = (m.stores p i).value ∧ m' = m.acquire t p i := by
  obtain ⟨hload, hpair⟩ := Option.ite_none_right_eq_some.mp h
  obtain ⟨hvalue, hmemory⟩ := Prod.mk.inj (Option.some.inj hpair)
  exact ⟨hload, hvalue.symm, hmemory.symm⟩

theorem seen_le_acquire (m : Memory T P V) (t : T) (p : P) (i : ℕ) (t' : T) :
    m.seen t' ≤ (m.acquire t p i).seen t' := by
  have hle : m.seen ≤ (m.acquire t p i).seen := le_update_iff.mpr ⟨le_sup_left, fun _ _ => le_rfl⟩
  exact hle t'

theorem acquire_seen_of_ne (h : t' ≠ t) : (m.acquire t p i).seen t' = m.seen t' :=
  Function.update_of_ne h _ _

theorem Knows.acquire (h : m.Knows t' q) : (m.acquire t p i).Knows t' q :=
  h.trans (m.seen_le_acquire t p i t' q)

theorem Everywhere.acquire {K : Set (View P)} (h : m.Everywhere K) (hK : SupClosed K) :
    (m.acquire t p i).Everywhere K where
  seen := (Function.forall_update_iff m.seen (p := fun _ w => w ∈ K)).mpr
    ⟨hK (h.seen t) (h.stores p i), fun t' _ => h.seen t'⟩
  stores := h.stores

theorem supClosed_Iic (w : View P) : SupClosed (Set.Iic w) :=
  fun _ ha _ hb => sup_le (Set.mem_Iic.mp ha) (Set.mem_Iic.mp hb)

theorem Past.acquire (h : m.Past) : (m.acquire t p i).Past :=
  Everywhere.acquire h (supClosed_Iic m.now)

variable [DecidableEq P]

/-- A thread learns of a store, and of nothing else that was known at it. -/
def observe (m : Memory T P V) (t : T) (p : P) (i : ℕ) : Memory T P V :=
  { m with seen := Function.update m.seen t (Function.update (m.seen t) p i) }

/-- Load a store without acquire. -/
def loadRelaxed (m : Memory T P V) (t : T) (p : P) (i : ℕ) : Option (V × Memory T P V) :=
  if m.mayLoad t p i then some ((m.stores p i).value, m.observe t p i) else none

theorem loadRelaxed_eq_some (h : m.loadRelaxed t p i = some (v, m')) :
    m.mayLoad t p i ∧ v = (m.stores p i).value ∧ m' = m.observe t p i := by
  obtain ⟨hload, hpair⟩ := Option.ite_none_right_eq_some.mp h
  obtain ⟨hvalue, hmemory⟩ := Prod.mk.inj (Option.some.inj hpair)
  exact ⟨hload, hvalue.symm, hmemory.symm⟩

/-- A thread that knows of every store loads the last one and learns nothing. -/
theorem Knows.loadRelaxed (h : m.Knows t p) (hload : m.loadRelaxed t p i = some (v, m')) :
    v = (m.stores p (m.now p)).value ∧ m' = m := by
  obtain ⟨hmay, rfl, rfl⟩ := loadRelaxed_eq_some hload
  obtain rfl := h.eq_of_mayLoad hmay
  have hseen : m.seen t p = m.now p := le_antisymm (mayLoad_iff.mp hmay).1 h
  rw [observe, ← hseen, Function.update_eq_self, Function.update_eq_self]
  exact ⟨rfl, rfl⟩

theorem seen_le_observe (h : m.mayLoad t p i) (t' : T) : m.seen t' ≤ (m.observe t p i).seen t' := by
  have hle : m.seen ≤ (m.observe t p i).seen := le_update_iff.mpr
    ⟨le_update_iff.mpr ⟨(mayLoad_iff.mp h).1, fun _ _ => le_rfl⟩, fun _ _ => le_rfl⟩
  exact hle t'

theorem observe_seen_of_ne (h : t' ≠ t) : (m.observe t p i).seen t' = m.seen t' :=
  Function.update_of_ne h _ _

theorem Everywhere.observe {K : Set (View P)} (h : m.Everywhere K)
    (hnew : Function.update (m.seen t) p i ∈ K) : (m.observe t p i).Everywhere K where
  seen := (Function.forall_update_iff m.seen (p := fun _ w => w ∈ K)).mpr
    ⟨hnew, fun t' _ => h.seen t'⟩
  stores := h.stores

theorem Past.observe (h : m.Past) (hload : m.mayLoad t p i) : (m.observe t p i).Past :=
  Everywhere.observe h (update_le_iff.mpr ⟨(mayLoad_iff.mp hload).2, fun q _ => h.seen t q⟩)

/-- A thread makes one more event at a place. -/
def event (m : Memory T P V) (t : T) (p : P) : Memory T P V :=
  { m with
    now := Function.update m.now p (m.now p + 1)
    seen := Function.update m.seen t (Function.update (m.seen t) p (m.now p + 1)) }

/-- Store a value with release. -/
def storeRelease (m : Memory T P V) (t : T) (p : P) (v : V) : Memory T P V :=
  { m.event t p with
    stores := Function.update m.stores p
      (Function.update (m.stores p) (m.now p + 1) ⟨v, (m.event t p).seen t⟩) }

theorem event_now_self : (m.event t p).now p = m.now p + 1 := Function.update_self _ _ _

theorem event_now_of_ne (h : q ≠ p) : (m.event t p).now q = m.now q := Function.update_of_ne h _ _

theorem now_le_event (q : P) : m.now q ≤ (m.event t p).now q := by
  have hle : m.now ≤ (m.event t p).now :=
    le_update_iff.mpr ⟨Nat.le_succ _, fun _ _ => le_rfl⟩
  exact hle q

theorem event_seen_self : (m.event t p).seen t = Function.update (m.seen t) p (m.now p + 1) :=
  Function.update_self _ _ _

theorem event_seen_of_ne (h : q ≠ p) (t' : T) : (m.event t p).seen t' q = m.seen t' q := by
  by_cases ht : t' = t
  · subst ht
    rw [event_seen_self, Function.update_of_ne h]
  · exact congrFun (Function.update_of_ne ht _ _) q

theorem event_seen_other (h : t' ≠ t) : (m.event t p).seen t' = m.seen t' :=
  Function.update_of_ne h _ _

/-- A thread knows of its own events. -/
theorem knows_event : (m.event t p).Knows t p := by
  rw [Knows, event_now_self, event_seen_self, Function.update_self]

theorem Knows.event_of_ne (h : m.Knows t' q) (hne : q ≠ p) : (m.event t p).Knows t' q := by
  rw [Knows, event_now_of_ne hne, event_seen_of_ne hne]
  exact h

/-- A thread knows of the events at a place still after one of its own there. -/
theorem Knows.event (h : m.Knows t q) : (m.event t p).Knows t q := by
  by_cases hq : q = p
  · subst hq
    exact knows_event
  · exact h.event_of_ne hq

theorem Everywhere.event {K : Set (View P)} (h : m.Everywhere K)
    (hnew : Function.update (m.seen t) p (m.now p + 1) ∈ K) : (m.event t p).Everywhere K where
  seen := (Function.forall_update_iff m.seen (p := fun _ w => w ∈ K)).mpr
    ⟨hnew, fun t' _ => h.seen t'⟩
  stores := h.stores

theorem Everywhere.storeRelease {K : Set (View P)} (h : (m.event t p).Everywhere K) :
    (m.storeRelease t p v).Everywhere K where
  seen := h.seen
  stores := (Function.forall_update_iff m.stores (p := fun _ stores => ∀ i, (stores i).view ∈ K)).mpr
    ⟨(Function.forall_update_iff (m.stores p) (p := fun _ stored => stored.view ∈ K)).mpr
      ⟨h.seen t, fun i _ => h.stores p i⟩, fun q _ => h.stores q⟩

theorem Past.event (h : m.Past) : (m.event t p).Past := by
  have hle : m.now ≤ (m.event t p).now := now_le_event
  have hold : m.Everywhere (Set.Iic (m.event t p).now) :=
    ⟨fun t' => (h.seen t').trans hle, fun q i => (h.stores q i).trans hle⟩
  exact hold.event (update_le_update_iff.mpr ⟨le_rfl, fun q _ => h.seen t q⟩)

/-- Nothing is forgotten. -/
theorem Past.seen_le_event (h : m.Past) (t' : T) : m.seen t' ≤ (m.event t p).seen t' := by
  have hle : m.seen ≤ (m.event t p).seen := le_update_iff.mpr
    ⟨le_update_iff.mpr ⟨(h.seen t p).trans (Nat.le_succ _), fun _ _ => le_rfl⟩, fun _ _ => le_rfl⟩
  exact hle t'

theorem Past.seen_le_storeRelease (h : m.Past) (t' : T) :
    m.seen t' ≤ (m.storeRelease t p v).seen t' := h.seen_le_event t'

theorem Past.storeRelease (h : m.Past) : (m.storeRelease t p v).Past :=
  Everywhere.storeRelease h.event

theorem storeRelease_now_self : (m.storeRelease t p v).now p = m.now p + 1 :=
  event_now_self (t := t)

theorem storeRelease_now_of_ne (h : q ≠ p) : (m.storeRelease t p v).now q = m.now q :=
  event_now_of_ne (t := t) h

theorem now_le_storeRelease (q : P) : m.now q ≤ (m.storeRelease t p v).now q :=
  now_le_event (t := t) q

theorem storeRelease_seen_of_ne (h : q ≠ p) (t' : T) :
    (m.storeRelease t p v).seen t' q = m.seen t' q := event_seen_of_ne h t'

theorem storeRelease_seen_other (h : t' ≠ t) : (m.storeRelease t p v).seen t' = m.seen t' :=
  event_seen_other h

theorem knows_storeRelease : (m.storeRelease t p v).Knows t p := knows_event

theorem Knows.storeRelease_of_ne (h : m.Knows t' q) (hne : q ≠ p) :
    (m.storeRelease t p v).Knows t' q := h.event_of_ne hne

theorem storeRelease_stores_of_ne (h : q ≠ p) :
    (m.storeRelease t p v).stores q = m.stores q := Function.update_of_ne h _ _

theorem storeRelease_stores_self (i : ℕ) : (m.storeRelease t p v).stores p i =
    if i = m.now p + 1 then ⟨v, Function.update (m.seen t) p (m.now p + 1)⟩ else m.stores p i := by
  have hself : (m.storeRelease t p v).stores p =
      Function.update (m.stores p) (m.now p + 1) ⟨v, (m.event t p).seen t⟩ :=
    Function.update_self _ _ _
  rw [hself, event_seen_self, Function.update_apply]

section Bounds

variable [Preorder V] {b b' : V}

/-- A bound of the values that are stored at a place holds on when another place is stored. -/
theorem stored_le_of_ne (h : ∀ i ≤ m.now q, (m.stores q i).value ≤ b) (hne : q ≠ p) :
    ∀ i ≤ (m.storeRelease t p v).now q, ((m.storeRelease t p v).stores q i).value ≤ b := by
  rw [storeRelease_now_of_ne hne, storeRelease_stores_of_ne hne]
  exact h

theorem stored_le_storeRelease (h : ∀ i ≤ m.now p, (m.stores p i).value ≤ b) (hb : b ≤ b')
    (hv : v ≤ b') :
    ∀ i ≤ (m.storeRelease t p v).now p, ((m.storeRelease t p v).stores p i).value ≤ b' := by
  intro i hi
  rw [storeRelease_stores_self]
  split
  · exact hv
  · rename_i hne
    rw [storeRelease_now_self] at hi
    exact (h i (Nat.le_of_lt_succ (hi.lt_of_ne hne))).trans hb

end Bounds

end Memory

/-! ### What is known together -/

/-- Whoever knows of so many events at one place knows of so many at another. -/
def Carries {P : Type*} (p q : P) (f : ℕ → ℕ) : Set (View P) := {w | f (w p) ≤ w q}

section Carries

variable {P : Type*} {p q p' : P} {f : ℕ → ℕ} {w : View P} {n : ℕ}

theorem supClosed_carries (p q : P) (hf : Monotone f) : SupClosed (Carries p q f) := by
  intro a ha b hb
  change f (max (a p) (b p)) ≤ max (a q) (b q)
  rw [hf.map_max]
  exact max_le_max ha hb

/-- Before the first event at a place nobody knows of one. -/
theorem Memory.Past.everywhere_carries {T V : Type*} {m : Memory T P V} (h : m.Past)
    (hnone : m.now p = 0) (hf : f 0 = 0) : m.Everywhere (Carries p q f) := by
  have hmem : ∀ w ∈ Set.Iic m.now, w ∈ Carries p q f := by
    intro w hw
    change f (w p) ≤ w q
    rw [Nat.le_zero.mp ((hw p).trans_eq hnone), hf]
    exact Nat.zero_le _
  exact ⟨fun t => hmem _ (h.seen t), fun p' i => hmem _ (h.stores p' i)⟩

variable [DecidableEq P]

/-- More events anywhere but at the first place are no harm. -/
theorem mem_carries_update (h : w ∈ Carries p q f) (hne : p' ≠ p) (hle : w p' ≤ n) :
    Function.update w p' n ∈ Carries p q f := by
  change f (Function.update w p' n p) ≤ Function.update w p' n q
  rw [Function.update_of_ne hne.symm]
  exact le_trans h ((le_update_iff.mpr ⟨hle, fun _ _ => le_rfl⟩ : w ≤ _) q)

end Carries

end MemoryOrder
