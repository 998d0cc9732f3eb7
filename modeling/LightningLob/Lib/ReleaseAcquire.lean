import Mathlib.Data.List.Basic
import Mathlib.Logic.Function.Basic
import Mathlib.Order.Lattice

/-! # Release and acquire

    Threads that share atomic locations and plain cells, in the fragment of the
    C++ memory model without fences and consume accesses.

    An atomic location keeps all its stores, in modification order, and a load
    may return any store that its thread does not know to be superseded.  A
    `View` is what happens before a point of a thread: how many of the stores
    of each location, and of each thread's reads and writes of each cell.  A
    release store passes its thread's view on to the loads that acquire it.

    A location is stored to by one thread only, or modified by
    read-modify-writes only, so that a new store is the last one.

    The single order that C++ gives all `seqCst` accesses is left out: they are
    taken as `acqRel`, and a run here need not respect it. -/

namespace ReleaseAcquire

/-! ## Section 1: Views -/

/-- The memory orders an access may ask for. -/
inductive MemoryOrder where
  | relaxed
  | acquire
  | release
  | acqRel
  | seqCst
  deriving DecidableEq, Repr

/-- A load learns what the store that it returns passes on. -/
def MemoryOrder.acquires : MemoryOrder → Bool
  | .acquire | .acqRel | .seqCst => true
  | .relaxed | .release => false

/-- A store passes on all that its thread knows. -/
def MemoryOrder.releases : MemoryOrder → Bool
  | .release | .acqRel | .seqCst => true
  | .relaxed | .acquire => false

/-- What a view counts. -/
inductive Mark (Tid Loc Cell : Type) where
  | store (l : Loc)
  | read (t : Tid) (c : Cell)
  | write (t : Tid) (c : Cell)
  deriving DecidableEq, Repr

/-- How many of each have happened before.  The first store of a location, its
    initialisation, is number 0 and known to all. -/
abbrev View (Tid Loc Cell : Type) : Type := Mark Tid Loc Cell → Nat

variable {Tid Loc Cell V T : Type} [DecidableEq Tid] [DecidableEq Loc] [DecidableEq Cell]

/-- Only `n` of the mark `k`. -/
def View.upTo (k : Mark Tid Loc Cell) (n : Nat) : View Tid Loc Cell :=
  fun k' => if k' = k then n else 0

/-- One more of the mark `k`. -/
def View.next (v : View Tid Loc Cell) (k : Mark Tid Loc Cell) : View Tid Loc Cell :=
  Function.update v k (v k + 1)

theorem View.upTo_le {k : Mark Tid Loc Cell} {n : Nat} {v : View Tid Loc Cell} (h : n ≤ v k) :
    View.upTo k n ≤ v := by
  intro k'
  unfold View.upTo
  split
  · rename_i hk
    rw [hk]
    exact h
  · exact Nat.zero_le _

theorem View.le_next (v : View Tid Loc Cell) (k : Mark Tid Loc Cell) : v ≤ v.next k := by
  intro k'
  by_cases hk : k' = k
  · rw [hk]
    simp [View.next]
  · simp [View.next, hk]

theorem View.next_of_ne {v : View Tid Loc Cell} {k k' : Mark Tid Loc Cell} (h : k' ≠ k) :
    v.next k k' = v k' :=
  Function.update_of_ne h _ _

@[simp] theorem View.next_self (v : View Tid Loc Cell) (k : Mark Tid Loc Cell) :
    v.next k k = v k + 1 :=
  Function.update_self ..

/-! ## Section 2: The memory -/

/-- A store, with the view it passes on. -/
structure Message (Tid Loc Cell V : Type) where
  value : V
  view : View Tid Loc Cell

structure Memory (Tid Loc Cell V T : Type) where
  /-- The stores of a location, in modification order. -/
  stores : Loc → List (Message Tid Loc Cell V)
  cells : Cell → T
  /-- All that has happened. -/
  done : View Tid Loc Cell
  /-- What has happened before the next access of a thread. -/
  views : Tid → View Tid Loc Cell

namespace Memory

/-- The memory as it is initialised. -/
def initial (value : Loc → V) (content : Cell → T) : Memory Tid Loc Cell V T where
  stores := fun l => [⟨value l, fun _ => 0⟩]
  cells := content
  done := fun _ => 0
  views := fun _ _ => 0

/-- The view of a load that returned store number `pos`, which passes `view`
    on. -/
def loaded (m : Memory Tid Loc Cell V T) (t : Tid) (order : MemoryOrder) (l : Loc) (pos : Nat)
    (view : View Tid Loc Cell) : View Tid Loc Cell :=
  let own := m.views t ⊔ View.upTo (.store l) pos
  if order.acquires then own ⊔ view else own

/-- A load that returns store number `pos`, which its thread must not know to
    be superseded. -/
def load (m : Memory Tid Loc Cell V T) (t : Tid) (order : MemoryOrder) (l : Loc) (pos : Nat) :
    Option (V × Memory Tid Loc Cell V T) :=
  if m.views t (.store l) ≤ pos then do
    let msg ← (m.stores l)[pos]?
    let view := m.loaded t order l pos msg.view
    pure (msg.value, { m with views := Function.update m.views t view })
  else
    none

/-- The view of a thread after it stored to `l`. -/
def stored (m : Memory Tid Loc Cell V T) (t : Tid) (l : Loc) : View Tid Loc Cell :=
  Function.update (m.views t) (.store l) (m.done (.store l) + 1)

@[simp] theorem stored_self (m : Memory Tid Loc Cell V T) (t : Tid) (l : Loc) :
    m.stored t l (.store l) = m.done (.store l) + 1 :=
  Function.update_self ..

theorem stored_of_ne {m : Memory Tid Loc Cell V T} {t : Tid} {l : Loc} {k : Mark Tid Loc Cell}
    (h : k ≠ .store l) : m.stored t l k = m.views t k :=
  Function.update_of_ne h _ _

/-- What a store to `l` passes on. -/
def released (m : Memory Tid Loc Cell V T) (t : Tid) (order : MemoryOrder) (l : Loc) :
    View Tid Loc Cell :=
  if order.releases then m.stored t l else View.upTo (.store l) (m.done (.store l) + 1)

theorem released_of_releases {m : Memory Tid Loc Cell V T} {t : Tid} {order : MemoryOrder} {l : Loc}
    (horder : order.releases) : m.released t order l = m.stored t l :=
  if_pos horder

/-- The memory after `t` added a message to `l`. -/
def add (m : Memory Tid Loc Cell V T) (t : Tid) (l : Loc) (msg : Message Tid Loc Cell V) :
    Memory Tid Loc Cell V T :=
  { m with
    stores := Function.update m.stores l (m.stores l ++ [msg])
    done := m.done.next (.store l)
    views := Function.update m.views t (m.stored t l) }

def store (m : Memory Tid Loc Cell V T) (t : Tid) (order : MemoryOrder) (l : Loc) (value : V) :
    Memory Tid Loc Cell V T :=
  m.add t l ⟨value, m.released t order l⟩

/-- A read-modify-write: it loads the last store, replaces it, and passes on
    what that one did. -/
def modify (m : Memory Tid Loc Cell V T) (t : Tid) (order : MemoryOrder) (l : Loc) (f : V → V) :
    Option (Memory Tid Loc Cell V T) := do
  let msg ← (m.stores l).getLast?
  let (value, m) ← m.load t order l (m.done (.store l))
  pure (m.add t l ⟨f value, m.released t order l ⊔ msg.view⟩)

/-- A read of a plain cell. -/
def read (m : Memory Tid Loc Cell V T) (t : Tid) (c : Cell) : T × Memory Tid Loc Cell V T :=
  (m.cells c,
    { m with
      done := m.done.next (.read t c)
      views := Function.update m.views t ((m.views t).next (.read t c)) })

/-- A write of a plain cell. -/
def write (m : Memory Tid Loc Cell V T) (t : Tid) (c : Cell) (v : T) : Memory Tid Loc Cell V T :=
  { m with
    cells := Function.update m.cells c v
    done := m.done.next (.write t c)
    views := Function.update m.views t ((m.views t).next (.write t c)) }

section fields

variable (m : Memory Tid Loc Cell V T) (t : Tid) (l : Loc) (c : Cell) (v : T)
  (msg : Message Tid Loc Cell V)

@[simp] theorem write_stores : (m.write t c v).stores = m.stores := rfl
@[simp] theorem write_cells : (m.write t c v).cells = Function.update m.cells c v := rfl
@[simp] theorem write_done : (m.write t c v).done = m.done.next (.write t c) := rfl
@[simp] theorem write_views : (m.write t c v).views =
    Function.update m.views t ((m.views t).next (.write t c)) := rfl

@[simp] theorem read_value : (m.read t c).1 = m.cells c := rfl
@[simp] theorem read_stores : (m.read t c).2.stores = m.stores := rfl
@[simp] theorem read_cells : (m.read t c).2.cells = m.cells := rfl
@[simp] theorem read_done : (m.read t c).2.done = m.done.next (.read t c) := rfl
@[simp] theorem read_views : (m.read t c).2.views =
    Function.update m.views t ((m.views t).next (.read t c)) := rfl

@[simp] theorem add_stores : (m.add t l msg).stores =
    Function.update m.stores l (m.stores l ++ [msg]) := rfl
@[simp] theorem add_cells : (m.add t l msg).cells = m.cells := rfl
@[simp] theorem add_done : (m.add t l msg).done = m.done.next (.store l) := rfl
@[simp] theorem add_views : (m.add t l msg).views =
    Function.update m.views t (m.stored t l) := rfl

theorem write_done_store : (m.write t c v).done (.store l) = m.done (.store l) := by
  rw [write_done, View.next_of_ne (by simp)]

theorem read_done_store : (m.read t c).2.done (.store l) = m.done (.store l) := by
  rw [read_done, View.next_of_ne (by simp)]

end fields

/-- A read that does not come after every write of the cell is a data race. -/
def ReadRaces (m : Memory Tid Loc Cell V T) (t : Tid) (c : Cell) : Prop :=
  ∃ u, m.views t (.write u c) < m.done (.write u c)

/-- A write that does not come after every access to the cell is a data race. -/
def WriteRaces (m : Memory Tid Loc Cell V T) (t : Tid) (c : Cell) : Prop :=
  ∃ u, m.views t (.write u c) < m.done (.write u c) ∨ m.views t (.read u c) < m.done (.read u c)

/-! ## Section 3: What every memory satisfies -/

/-- Stores are numbered, nobody knows what has not happened, and a thread knows
    its own accesses. -/
structure Consistent (m : Memory Tid Loc Cell V T) : Prop where
  length : ∀ l, (m.stores l).length = m.done (.store l) + 1
  thread : ∀ t, m.views t ≤ m.done
  message : ∀ l, ∀ msg ∈ m.stores l, msg.view ≤ m.done
  position : ∀ l k, ∀ msg, (m.stores l)[k]? = some msg → Message.view msg (.store l) = k
  own : ∀ t c, m.views t (.read t c) = m.done (.read t c) ∧
    m.views t (.write t c) = m.done (.write t c)

section consistent

variable {m m' : Memory Tid Loc Cell V T} {t u : Tid} {l : Loc} {c : Cell} {pos : Nat} {value : V}
  {order : MemoryOrder} {msg : Message Tid Loc Cell V}

omit [DecidableEq Tid] [DecidableEq Loc] [DecidableEq Cell] in
theorem consistent_initial (value : Loc → V) (content : Cell → T) :
    (initial value content : Memory Tid Loc Cell V T).Consistent where
  length := fun _ => rfl
  thread := fun _ => le_rfl
  message := by
    intro l msg hmsg
    obtain rfl : msg = ⟨value l, fun _ => 0⟩ := by simpa [initial] using hmsg
    exact le_rfl
  position := by
    intro l k msg hk
    obtain ⟨rfl, rfl⟩ : k = 0 ∧ ⟨value l, fun _ => 0⟩ = msg := by
      simpa [initial, List.getElem?_singleton] using hk
    rfl
  own := fun _ _ => ⟨rfl, rfl⟩

omit [DecidableEq Tid] [DecidableEq Loc] [DecidableEq Cell] in
theorem Consistent.known_le (h : m.Consistent) (t : Tid) (k : Mark Tid Loc Cell) :
    m.views t k ≤ m.done k :=
  h.thread t k

/-- **Inversion of a load.** -/
theorem load_eq_some : m.load t order l pos = some (value, m') ↔
    m.views t (.store l) ≤ pos ∧ ∃ msg, (m.stores l)[pos]? = some msg ∧ value = msg.value ∧
      m' = { m with views := Function.update m.views t (m.loaded t order l pos msg.view) } := by
  unfold load
  split
  · rename_i hle
    simp only [Option.bind_eq_bind, Option.bind_eq_some_iff, Option.pure_def, Option.some.injEq,
      Prod.mk.injEq, hle, true_and]
    constructor
    · rintro ⟨msg, hmsg, rfl, rfl⟩
      exact ⟨msg, hmsg, rfl, rfl⟩
    · rintro ⟨msg, hmsg, rfl, rfl⟩
      exact ⟨msg, hmsg, rfl, rfl⟩
  · rename_i hle
    simp [hle]

/-- Of its order, a load takes only whether it acquires. -/
theorem load_congr {order' : MemoryOrder} (horder : order.acquires = order'.acquires) :
    m.load t order l pos = m.load t order' l pos := by
  unfold load loaded
  rw [horder]

/-- And a store, whether it releases. -/
theorem store_congr {order' : MemoryOrder} (horder : order.releases = order'.releases) :
    m.store t order l value = m.store t order' l value := by
  unfold store released
  rw [horder]

/-- What an acquiring load learns. -/
theorem Consistent.loaded_acquire (h : m.Consistent) (hpos : (m.stores l)[pos]? = some msg) :
    m.loaded t .acquire l pos msg.view = m.views t ⊔ msg.view := by
  have hle : View.upTo (.store l) pos ≤ msg.view :=
    View.upTo_le (Nat.le_of_eq (h.position l pos msg hpos).symm)
  show m.views t ⊔ View.upTo (.store l) pos ⊔ msg.view = _
  rw [sup_assoc, sup_of_le_right hle]

/-- A thread that knows all stores of a location loads the last one, and
    learns nothing. -/
theorem Consistent.load_own (h : m.Consistent) (hown : m.views t (.store l) = m.done (.store l))
    (hload : m.load t .relaxed l pos = some (value, m')) :
    m' = m ∧ ∃ msg, (m.stores l)[m.done (.store l)]? = some msg ∧ value = msg.value := by
  obtain ⟨hle, msg, hmsg, rfl, rfl⟩ := load_eq_some.mp hload
  have hlt := (List.getElem?_eq_some_iff.mp hmsg).1
  have hlen := h.length l
  obtain rfl : pos = m.done (.store l) := by omega
  refine ⟨?_, msg, hmsg, rfl⟩
  have hsame : m.loaded t .relaxed l (m.done (.store l)) msg.view = m.views t := by
    unfold loaded
    rw [if_neg (by decide), sup_of_le_left (View.upTo_le (Nat.le_of_eq hown.symm))]
  rw [hsame, Function.update_eq_self]

theorem loaded_le (h : m.Consistent) (hpos : (m.stores l)[pos]? = some msg) :
    m.loaded t order l pos msg.view ≤ m.done := by
  have hlt := (List.getElem?_eq_some_iff.mp hpos).1
  have hlen := h.length l
  have hown : m.views t ⊔ View.upTo (.store l) pos ≤ m.done :=
    sup_le (h.thread t) (View.upTo_le (by omega))
  unfold loaded
  split
  · exact sup_le hown (h.message l msg (List.mem_of_getElem? hpos))
  · exact hown

theorem le_loaded (view : View Tid Loc Cell) : m.views t ≤ m.loaded t order l pos view := by
  unfold loaded
  split
  · exact le_sup_of_le_left le_sup_left
  · exact le_sup_left

theorem Consistent.load (h : m.Consistent) (hload : m.load t order l pos = some (value, m')) :
    m'.Consistent := by
  obtain ⟨-, msg, hmsg, -, rfl⟩ := load_eq_some.mp hload
  have hle : m.loaded t order l pos msg.view ≤ m.done := loaded_le h hmsg
  refine ⟨h.length, ?_, h.message, h.position, ?_⟩
  · intro u
    by_cases hu : u = t
    · rw [hu]
      simpa using hle
    · simpa [hu] using h.thread u
  · intro u c
    by_cases hu : u = t
    · subst hu
      have hge : m.views u ≤ m.loaded u order l pos msg.view := le_loaded msg.view
      obtain ⟨hread, hwrite⟩ := h.own u c
      simp only [Function.update_self]
      refine ⟨le_antisymm (hle _) ?_, le_antisymm (hle _) ?_⟩
      · rw [← hread]
        exact hge _
      · rw [← hwrite]
        exact hge _
    · simpa [hu] using h.own u c

/-- A message added is the last one. -/
theorem Consistent.getElem?_add (h : m.Consistent) {k : Nat} {msg' : Message Tid Loc Cell V}
    (hk : ((m.add t l msg).stores l)[k]? = some msg') :
    (m.stores l)[k]? = some msg' ∨ k = m.done (.store l) + 1 ∧ msg' = msg := by
  have hlen := h.length l
  rw [add_stores, Function.update_self] at hk
  by_cases hlt : k < (m.stores l).length
  · rw [List.getElem?_append_left hlt] at hk
    exact Or.inl hk
  · rw [List.getElem?_append_right (by omega), List.getElem?_singleton] at hk
    split at hk
    · exact Or.inr ⟨by omega, (Option.some.inj hk).symm⟩
    · cases hk

/-- A message that is next in its location, and says nothing else that has not
    happened. -/
theorem Consistent.add (h : m.Consistent) (hview : msg.view ≤ m.done.next (.store l))
    (hpos : msg.view (.store l) = m.done (.store l) + 1) : (m.add t l msg).Consistent where
  length := by
    intro l'
    by_cases hl : l' = l
    · rw [hl]
      simp [Memory.add, h.length l]
    · simp [Memory.add, hl, h.length l', View.next_of_ne]
  thread := by
    intro u
    by_cases hu : u = t
    · subst hu
      intro k
      by_cases hk : k = .store l
      · rw [hk]
        simp [Memory.add, Memory.stored]
      · simpa [Memory.add, Memory.stored, hk, View.next_of_ne hk] using h.thread u k
    · simpa [Memory.add, hu] using (h.thread u).trans (View.le_next _ _)
  message := by
    intro l' msg' hmsg'
    have hold : ∀ l', msg' ∈ m.stores l' → msg'.view ≤ m.done.next (.store l) :=
      fun l' hmem => (h.message l' msg' hmem).trans (View.le_next _ _)
    by_cases hl : l' = l
    · subst hl
      simp only [Memory.add, Function.update_self, List.mem_append, List.mem_singleton] at hmsg'
      rcases hmsg' with hmem | rfl
      · exact hold l' hmem
      · exact hview
    · exact hold l' (by simpa [Memory.add, hl] using hmsg')
  position := by
    intro l' k msg' hk
    by_cases hl : l' = l
    · subst hl
      rcases h.getElem?_add hk with hold | ⟨rfl, rfl⟩
      · exact h.position l' k msg' hold
      · exact hpos
    · exact h.position l' k msg' (by simpa [Memory.add, hl] using hk)
  own := by
    intro u c
    by_cases hu : u = t
    · subst hu
      simpa [Memory.add, Memory.stored, View.next] using h.own u c
    · simpa [Memory.add, hu, View.next] using h.own u c

theorem Consistent.stored_le (h : m.Consistent) (t : Tid) (l : Loc) :
    m.stored t l ≤ m.done.next (.store l) := by
  intro k
  by_cases hk : k = .store l
  · rw [hk]
    simp [stored]
  · simpa [stored, hk, View.next_of_ne hk] using h.thread t k

theorem Consistent.le_stored (h : m.Consistent) (t : Tid) (l : Loc) :
    m.views t ≤ m.stored t l := by
  intro k
  by_cases hk : k = .store l
  · rw [hk, stored_self]
    exact (h.thread t _).trans (Nat.le_succ _)
  · rw [stored_of_ne hk]

theorem Consistent.released_le (h : m.Consistent) (t : Tid) (order : MemoryOrder) (l : Loc) :
    m.released t order l ≤ m.done.next (.store l) := by
  unfold released
  split
  · exact h.stored_le t l
  · exact View.upTo_le (by simp)

@[simp] theorem released_self (m : Memory Tid Loc Cell V T) (t : Tid) (order : MemoryOrder)
    (l : Loc) : m.released t order l (.store l) = m.done (.store l) + 1 := by
  unfold released
  split <;> simp [stored, View.upTo]

theorem Consistent.store (h : m.Consistent) (t : Tid) (order : MemoryOrder) (l : Loc) (value : V) :
    (m.store t order l value).Consistent :=
  h.add (h.released_le t order l) (released_self m t order l)

/-- A store on top of the last one, which passes on what that one did. -/
theorem Consistent.replace (h : m.Consistent)
    (hmsg : (m.stores l)[m.done (.store l)]? = some msg) (t : Tid) (order : MemoryOrder)
    (value : V) : (m.add t l ⟨value, m.released t order l ⊔ msg.view⟩).Consistent := by
  have hle := h.message l msg (List.mem_of_getElem? hmsg)
  refine h.add (sup_le (h.released_le t order l) (hle.trans (View.le_next _ _))) ?_
  have hpos := h.position l _ msg hmsg
  show max _ _ = _
  rw [released_self, hpos]
  omega

/-- **Inversion of a read-modify-write**: a load, and a store on top of what it
    returned. -/
theorem Consistent.modify (h : m.Consistent) (t : Tid) (order : MemoryOrder) (l : Loc) (f : V → V) :
    ∃ msg m₁, (m.stores l)[m.done (.store l)]? = some msg ∧
      m.load t order l (m.done (.store l)) = some (msg.value, m₁) ∧
      m.modify t order l f =
        some (m₁.add t l ⟨f msg.value, m₁.released t order l ⊔ msg.view⟩) := by
  have hlen := h.length l
  obtain ⟨msg, hmsg⟩ : ∃ msg, (m.stores l)[m.done (.store l)]? = some msg :=
    ⟨_, List.getElem?_eq_getElem (by omega)⟩
  have hlast : (m.stores l).getLast? = some msg := by
    rw [List.getLast?_eq_getElem?, hlen, Nat.add_sub_cancel]
    exact hmsg
  have hload : m.load t order l (m.done (.store l)) = some (msg.value, _) :=
    load_eq_some.mpr ⟨h.known_le t _, msg, hmsg, rfl, rfl⟩
  refine ⟨msg, _, hmsg, hload, ?_⟩
  unfold Memory.modify
  rw [hlast, hload]
  rfl

/-- The last store can always be loaded. -/
theorem Consistent.exists_load (h : m.Consistent) (t : Tid) (order : MemoryOrder) (l : Loc) :
    ∃ pos value m', m.load t order l pos = some (value, m') := by
  have hlen := h.length l
  obtain ⟨msg, hmsg⟩ : ∃ msg, (m.stores l)[m.done (.store l)]? = some msg :=
    ⟨_, List.getElem?_eq_getElem (by omega)⟩
  exact ⟨_, _, _, load_eq_some.mpr ⟨h.known_le t _, msg, hmsg, rfl, rfl⟩⟩

/-- Counting one more access of a thread, which it knows of. -/
theorem Consistent.access (h : m.Consistent) {k : Mark Tid Loc Cell} (hk : ∀ l, k ≠ .store l)
    (hown : ∀ u c, k = .read u c ∨ k = .write u c → u = t) (cells : Cell → T) :
    Consistent { m with
      cells := cells
      done := m.done.next k
      views := Function.update m.views t ((m.views t).next k) } where
  length := by
    intro l
    show _ = m.done.next k (.store l) + 1
    rw [View.next_of_ne (hk l).symm]
    exact h.length l
  thread := by
    intro u
    by_cases hu : u = t
    · subst hu
      intro k'
      by_cases hk' : k' = k
      · rw [hk']
        simpa using h.thread u k
      · simpa [View.next_of_ne hk'] using h.thread u k'
    · simpa [hu] using (h.thread u).trans (View.le_next _ _)
  message := fun l msg hmsg => (h.message l msg hmsg).trans (View.le_next _ _)
  position := h.position
  own := by
    intro u c
    obtain ⟨hread, hwrite⟩ := h.own u c
    have hnext : ∀ k', m.views u k' = m.done k' → (k' = k → u = t) →
        Function.update m.views t ((m.views t).next k) u k' = m.done.next k k' := by
      intro k' heq hut
      by_cases hu : u = t
      · subst hu
        by_cases hk' : k' = k
        · rw [hk'] at heq ⊢
          simpa using heq
        · simpa [View.next_of_ne hk'] using heq
      · have hk' : k' ≠ k := fun hc => hu (hut hc)
        simpa [hu, View.next_of_ne hk'] using heq
    exact ⟨hnext _ hread fun hc => hown u c (Or.inl hc.symm),
      hnext _ hwrite fun hc => hown u c (Or.inr hc.symm)⟩

theorem Consistent.read (h : m.Consistent) (t : Tid) (c : Cell) : (m.read t c).2.Consistent :=
  h.access (by simp) (by simp) m.cells

theorem Consistent.write (h : m.Consistent) (t : Tid) (c : Cell) (v : T) :
    (m.write t c v).Consistent :=
  h.access (by simp) (by simp) _

end consistent

/-! ## Section 4: Facts that views carry -/

/-- `P` holds of the views of all messages, and of those of the threads that
    `who` names. -/
structure Everywhere (who : Tid → Prop) (P : View Tid Loc Cell → Prop)
    (m : Memory Tid Loc Cell V T) : Prop where
  thread : ∀ t, who t → P (m.views t)
  message : ∀ l, ∀ msg ∈ m.stores l, P msg.view

/-- What two views know, they know together. -/
def Joins (P : View Tid Loc Cell → Prop) : Prop := ∀ v w, P v → P w → P (v ⊔ w)

section everywhere

variable {who : Tid → Prop} {P : View Tid Loc Cell → Prop} {m m' : Memory Tid Loc Cell V T}
  {t : Tid} {l : Loc} {c : Cell} {pos : Nat} {value : V} {msg : Message Tid Loc Cell V}

omit [DecidableEq Loc] [DecidableEq Cell] in
theorem Everywhere.update (h : m.Everywhere who P) {view : View Tid Loc Cell}
    (hview : who t → P view) (u : Tid) (hu : who u) : P (Function.update m.views t view u) := by
  by_cases hut : u = t
  · subst hut
    simpa using hview hu
  · simpa [hut] using h.thread u hu

omit [DecidableEq Tid] [DecidableEq Loc] [DecidableEq Cell] in
theorem Everywhere.mono (h : m.Everywhere who P) {who' : Tid → Prop}
    (hwho : ∀ t, who' t → who t) : m.Everywhere who' P :=
  ⟨fun t ht => h.thread t (hwho t ht), h.message⟩

/-- **Acquiring** hands facts on. -/
theorem Everywhere.acquire (hP : Joins P) (h : m.Everywhere who P) (hm : m.Consistent)
    (hload : m.load t .acquire l pos = some (value, m')) : m'.Everywhere who P := by
  obtain ⟨-, msg, hmsg, -, rfl⟩ := load_eq_some.mp hload
  refine ⟨h.update fun ht => ?_, h.message⟩
  rw [hm.loaded_acquire hmsg]
  exact hP _ _ (h.thread t ht) (h.message l msg (List.mem_of_getElem? hmsg))

/-- Loading with any order does, if no more comes of the number of the store. -/
theorem Everywhere.load {order : MemoryOrder} (hP : Joins P) (h : m.Everywhere who P)
    (hpos : P (View.upTo (.store l) pos)) (hload : m.load t order l pos = some (value, m')) :
    m'.Everywhere who P := by
  obtain ⟨-, msg, hmsg, -, rfl⟩ := load_eq_some.mp hload
  refine ⟨h.update fun ht => ?_, h.message⟩
  have hown := hP _ _ (h.thread t ht) hpos
  unfold loaded
  split
  · exact hP _ _ hown (h.message l msg (List.mem_of_getElem? hmsg))
  · exact hown

theorem Everywhere.add (h : m.Everywhere who P) (hview : who t → P (m.stored t l))
    (hmsg : P msg.view) : (m.add t l msg).Everywhere who P := by
  refine ⟨h.update hview, ?_⟩
  intro l' msg' hmem
  by_cases hl : l' = l
  · subst hl
    simp only [Memory.add, Function.update_self, List.mem_append, List.mem_singleton] at hmem
    rcases hmem with hmem | rfl
    · exact h.message l' msg' hmem
    · exact hmsg
  · exact h.message l' msg' (by simpa [Memory.add, hl] using hmem)

end everywhere

/-! ## Section 5: Facts that do not pass -/

/-- Thread `u` knows nothing of `k`, and learns nothing of it when it loads `l`
    with the order given. -/
structure Hidden (u : Tid) (l : Loc) (order : MemoryOrder) (k : Mark Tid Loc Cell)
    (m : Memory Tid Loc Cell V T) : Prop where
  thread : m.views u k = 0
  message : order.acquires → ∀ msg ∈ m.stores l, Message.view msg k = 0

section hidden

variable {m m' : Memory Tid Loc Cell V T} {t u : Tid} {l l' : Loc} {c : Cell} {pos : Nat}
  {value : V} {order order' : MemoryOrder} {k : Mark Tid Loc Cell}

/-- What neither the thread nor the message knows is not learned. -/
theorem loaded_eq_zero {view : View Tid Loc Cell} (hk : k ≠ .store l) (hown : m.views t k = 0)
    (hview : order.acquires → view k = 0) : m.loaded t order l pos view k = 0 := by
  unfold loaded
  split
  · rename_i hacquire
    simp [hown, hview hacquire, View.upTo, hk]
  · simp [hown, View.upTo, hk]

/-- A load that may return an old store, and teaches nothing of what is not
    known. -/
theorem exists_load_old {msg : Message Tid Loc Cell V} (hold : m.views t (.store l) ≤ pos)
    (hmsg : (m.stores l)[pos]? = some msg) (order : MemoryOrder) :
    ∃ m', m.load t order l pos = some (msg.value, m') ∧ m'.stores = m.stores ∧
      ∀ k, k ≠ .store l → m.views t k = 0 → (order.acquires → msg.view k = 0) →
        m'.views t k = 0 := by
  refine ⟨_, load_eq_some.mpr ⟨hold, msg, hmsg, rfl, rfl⟩, rfl, fun k hk hown hview => ?_⟩
  show Function.update m.views t (m.loaded t order l pos msg.view) t k = 0
  rw [Function.update_self]
  exact loaded_eq_zero hk hown hview

theorem Hidden.load (h : m.Hidden u l order k) (hk : ∀ l, k ≠ .store l)
    (hown : t = u → order'.acquires → l' = l ∧ order.acquires)
    (hload : m.load t order' l' pos = some (value, m')) : m'.Hidden u l order k := by
  obtain ⟨-, msg, hmsg, -, rfl⟩ := load_eq_some.mp hload
  refine ⟨?_, h.message⟩
  show Function.update m.views t (m.loaded t order' l' pos msg.view) u k = 0
  by_cases hu : u = t
  · subst hu
    rw [Function.update_self]
    refine loaded_eq_zero (hk l') h.thread fun horder => ?_
    obtain ⟨rfl, hacquire⟩ := hown rfl horder
    exact h.message hacquire msg (List.mem_of_getElem? hmsg)
  · rw [Function.update_of_ne hu]
    exact h.thread

theorem Hidden.store (h : m.Hidden u l order k) (hk : ∀ l, k ≠ .store l)
    (hweak : l' = l → order.acquires → ¬ order'.releases) :
    (m.store t order' l' value).Hidden u l order k := by
  constructor
  · show Function.update m.views t (m.stored t l') u k = 0
    by_cases hu : u = t
    · subst hu
      rw [Function.update_self, stored_of_ne (hk l')]
      exact h.thread
    · rw [Function.update_of_ne hu]
      exact h.thread
  · intro hacquire msg hmsg
    by_cases hl : l = l'
    · subst hl
      simp only [Memory.store, add_stores, Function.update_self, List.mem_append,
        List.mem_singleton] at hmsg
      rcases hmsg with hmem | rfl
      · exact h.message hacquire msg hmem
      · show m.released t order' l k = 0
        unfold released
        rw [if_neg (hweak rfl hacquire)]
        exact if_neg (hk l)
    · simp only [Memory.store, add_stores, Function.update_of_ne hl] at hmsg
      exact h.message hacquire msg hmsg

theorem Hidden.read (h : m.Hidden u l order k) (hk : t = u → k ≠ .read t c) :
    (m.read t c).2.Hidden u l order k := by
  refine ⟨?_, h.message⟩
  rw [read_views]
  by_cases hu : u = t
  · subst hu
    rw [Function.update_self, View.next_of_ne (hk rfl)]
    exact h.thread
  · rw [Function.update_of_ne hu]
    exact h.thread

theorem Hidden.write (h : m.Hidden u l order k) (hk : t = u → k ≠ .write t c) (v : T) :
    (m.write t c v).Hidden u l order k := by
  refine ⟨?_, h.message⟩
  rw [write_views]
  by_cases hu : u = t
  · subst hu
    rw [Function.update_self, View.next_of_ne (hk rfl)]
    exact h.thread
  · rw [Function.update_of_ne hu]
    exact h.thread

end hidden

/-! ## Section 6: The last store -/

/-- The last store of `l` is number `n` and has the value `value`. -/
structure Last (l : Loc) (n : Nat) (value : V) (m : Memory Tid Loc Cell V T) : Prop where
  count : m.done (.store l) = n
  value : ∃ msg, (m.stores l)[n]? = some msg ∧ Message.value msg = value

section last

variable {m : Memory Tid Loc Cell V T} {l l' : Loc} {n : Nat} {value value' : V} {t : Tid}
  {order : MemoryOrder}

/-- It can be loaded. -/
theorem Last.load (h : m.Last l n value) (hm : m.Consistent) (t : Tid) (order : MemoryOrder) :
    ∃ m', m.load t order l n = some (value, m') ∧ m'.stores = m.stores ∧ m'.done = m.done ∧
      ∀ u, u ≠ t → m'.views u = m.views u := by
  obtain ⟨msg, hmsg, rfl⟩ := h.value
  have hle := hm.known_le t (.store l)
  rw [h.count] at hle
  exact ⟨_, load_eq_some.mpr ⟨hle, msg, hmsg, rfl, rfl⟩, rfl, rfl,
    fun u hu => Function.update_of_ne hu _ _⟩

omit [DecidableEq Tid] [DecidableEq Loc] [DecidableEq Cell] in
theorem Last.of_eq {m' : Memory Tid Loc Cell V T} (h : m.Last l n value)
    (hstores : m'.stores = m.stores) (hdone : m'.done (.store l) = m.done (.store l)) :
    m'.Last l n value :=
  ⟨hdone.trans h.count, by rw [hstores]; exact h.value⟩

theorem Last.read (h : m.Last l n value) (t : Tid) (c : Cell) : (m.read t c).2.Last l n value :=
  h.of_eq rfl (read_done_store m t l c)

theorem Last.write (h : m.Last l n value) (t : Tid) (c : Cell) (v : T) :
    (m.write t c v).Last l n value :=
  h.of_eq rfl (write_done_store m t l c v)

theorem Last.store (h : m.Last l n value) (hm : m.Consistent) (t : Tid) (order : MemoryOrder)
    (value' : V) : (m.store t order l value').Last l (n + 1) value' := by
  have hlen := hm.length l
  rw [h.count] at hlen
  refine ⟨by simp [Memory.store, h.count], ⟨value', m.released t order l⟩, ?_, rfl⟩
  simp only [Memory.store, add_stores, Function.update_self]
  rw [List.getElem?_append_right (by omega), hlen, Nat.sub_self]
  rfl

theorem Last.store_of_ne (h : m.Last l n value) (hl : l ≠ l') :
    (m.store t order l' value').Last l n value := by
  refine ⟨?_, ?_⟩
  · rw [Memory.store, add_done, View.next_of_ne (by simpa using hl)]
    exact h.count
  · simp only [Memory.store, add_stores, Function.update_of_ne hl]
    exact h.value

end last

end Memory

end ReleaseAcquire
