import Mathlib.Logic.Function.Basic
import Toroni.Language
import Toroni.Library.Transition
import Toroni.Rmp.ByteRingBuffer

/-! One process initialises a ring buffer in zeroed shared memory, store by store, while any number
of writers and readers are constructed on it, load by load, in both languages. -/
namespace Toroni.Rmp.Initialization
open Transition Traits

structure Header where
  configBufSizeBytes : Position
  writerMtx : Option RobustProcMutex
  freePos : Position
  backPressureCount : StatCounter
  notificationCount : StatCounter
  initialized : Bool

def Header.zeroed : Header := ⟨0,none,0,0,0,false⟩

def Header.ringBuffer (header : Header) (data : Nat → UInt8) : Option ByteRingBuffer :=
  header.writerMtx.map (fun writerMtx => ⟨header.configBufSizeBytes,writerMtx,header.freePos,
    header.backPressureCount,header.notificationCount,header.initialized,data⟩)

inductive InitStore
  | configBufSizeBytes
  | writerMtx
  | freePos
  | backPressureCount
  | notificationCount
  | initialized
  deriving DecidableEq

def InitStore.apply (size : RingSize) (header : Header) : InitStore → Header
  | .configBufSizeBytes => { header with configBufSizeBytes := size.position }
  | .writerMtx => { header with writerMtx := some .unlocked }
  | .freePos => { header with freePos := 0 }
  | .backPressureCount => { header with backPressureCount := 0 }
  | .notificationCount => { header with notificationCount := 0 }
  | .initialized => { header with initialized := true }

/-- The order of the members in C++, and of the statements of `initialize` in Java. -/
def initStores : List InitStore :=
  [.configBufSizeBytes,.writerMtx,.freePos,.backPressureCount,.notificationCount,.initialized]

inductive Class
  | writer
  | reader
  | readerWithBackpressure

/-- A constructor loads the size for `_indexMask` and then the flag. One of a reader with back
pressure does so for its `Reader`, loads the size again for an `_indexMask` of its own if it is the
C++ one, and allocates a reader info. -/
inductive Phase
  | sizing
  | checking (indexMask : Position)
  | sizingAgain (indexMask : Position)
  | allocating (indexMask : Position) (own : Option Position)
  | returned (indexMask : Position) (own : Option Position)
  | failed

/-- `early` is a history variable: the size was loaded before it was stored. -/
structure Constructor where
  language : Language
  kind : Class
  phase : Phase
  early : Bool

namespace Constructor

def sized (header : Header) (next : Position → Phase) : Phase :=
  if isZeroOrPowerOfTwo header.configBufSizeBytes then next (indexMask header.configBufSizeBytes) else .failed

def checked (c : Constructor) (indexMask : Position) : Phase :=
  match c.kind, c.language with
  | .writer, _ | .reader, _ => .returned indexMask none
  | .readerWithBackpressure, .cpp => .sizingAgain indexMask
  | .readerWithBackpressure, .java => .allocating indexMask none

def next (stores : List InitStore) (header : Header) (free : Bool) (c : Constructor) : Option Constructor :=
  match c.phase with
  | .sizing => some { c with phase := sized header .checking, early := stores.contains .configBufSizeBytes }
  | .checking indexMask => some { c with phase := if header.initialized then c.checked indexMask else .failed }
  | .sizingAgain indexMask => some { c with phase := sized header (fun own => .allocating indexMask (some own)) }
  | .allocating indexMask own => some { c with phase := if free then .returned indexMask own else .failed }
  | .returned _ _ | .failed => none

end Constructor

structure State where
  header : Header
  stores : List InitStore
  constructors : Nat → Option Constructor

inductive Action
  | store
  | construct (k : Nat) (language : Language) (kind : Class)
  | step (k : Nat) (free : Bool)

def next (size : RingSize) (s : State) : Action → Option State
  | .store =>
    match s.stores with
    | store :: stores => some { s with header := store.apply size s.header, stores := stores }
    | [] => none
  | .construct k language kind =>
    match s.constructors k with
    | none => some { s with
        constructors := Function.update s.constructors k (some ⟨language,kind,.sizing,false⟩) }
    | some _ => none
  | .step k free => do
    let c ← s.constructors k
    let c ← c.next s.stores s.header free
    return { s with constructors := Function.update s.constructors k (some c) }

def start : State := ⟨.zeroed,initStores,fun _ => none⟩

def sys (size : RingSize) : System State Action := .ofNext (fun s => s = start) (next size)

/-- No constructor loads the size for the first time before it has been stored. -/
def allowed (s : State) : Action → Bool
  | .step k _ =>
    match s.constructors k with
    | some ⟨_,_,.sizing,_⟩ => !s.stores.contains .configBufSizeBytes
    | _ => true
  | _ => true

structure Sound (size : RingSize) (indexMask : Position) : Prop where
  value : indexMask.toNat = size.bytes - 1
  inside : ∀ pos, (bufIndex indexMask pos).toNat < size.bytes

def Safe (size : RingSize) (s : State) : Prop :=
  ∀ k c indexMask own, s.constructors k = some c → c.phase = .returned indexMask own →
    Sound size indexMask ∧ ∀ mask ∈ own, Sound size mask

def Constructor.loaded (size : RingSize) (c : Constructor) : Position :=
  indexMask (if c.early then 0 else size.position)

def ConstructorOk (size : RingSize) (stores : List InitStore) (c : Constructor) : Prop :=
  match c.phase with
  | .sizing | .failed => True
  | .checking indexMask => indexMask = c.loaded size
  | .sizingAgain indexMask => indexMask = c.loaded size ∧ stores = []
  | .allocating indexMask own | .returned indexMask own =>
    indexMask = c.loaded size ∧ ∀ mask ∈ own, mask = Rmp.indexMask size.position

structure Inv (size : RingSize) (s : State) : Prop where
  header : ∃ done, done ++ s.stores = initStores ∧ s.header = done.foldl (InitStore.apply size) .zeroed
  constructors : ∀ k c, s.constructors k = some c → ConstructorOk size s.stores c

section
variable {size : RingSize} {s t : State} {action : Action} {c d : Constructor} {k : Nat} {free : Bool}

theorem sound_indexMask (size : RingSize) : Sound size (indexMask size.position) where
  value := by
    have bounds := size.bounds
    have one : (1 : Position).toNat = 1 := rfl
    rw [indexMask,BitVec.toNat_sub,size.toNat_position,one]
    omega
  inside pos := by
    rw [bufIndex_toNat]
    exact size.mod_lt pos.toNat

theorem not_sound_zero (size : RingSize) : ¬ Sound size (indexMask 0) := by
  intro sound
  have bounds := size.bounds
  have wide : (indexMask 0).toNat = 2^64 - 1 := rfl
  have value := sound.value
  omega

theorem sound_loaded (size : RingSize) (c : Constructor) : Sound size (c.loaded size) ↔ c.early = false := by
  rw [Constructor.loaded]
  cases c.early with
  | true => simpa using not_sound_zero size
  | false => simpa using sound_indexMask size

theorem header_cases {done rest : List InitStore} (split : done ++ rest = initStores) :
    (done.foldl (InitStore.apply size) .zeroed).configBufSizeBytes =
        (if rest.contains .configBufSizeBytes then 0 else size.position) ∧
      ((done.foldl (InitStore.apply size) .zeroed).initialized = true → rest = []) := by
  simp only [initStores,List.append_eq_cons_iff,List.cons_eq_append_iff,List.nil_eq_append_iff] at split
  rcases split with ⟨rfl,rfl⟩ | ⟨_,rfl,⟨rfl,rfl⟩ | ⟨_,rfl,⟨rfl,rfl⟩ | ⟨_,rfl,⟨rfl,rfl⟩ | ⟨_,rfl,
    ⟨rfl,rfl⟩ | ⟨_,rfl,⟨rfl,rfl⟩ | ⟨_,rfl,rfl,rfl⟩⟩⟩⟩⟩⟩ <;> exact ⟨rfl,by simp [InitStore.apply,Header.zeroed]⟩

theorem Inv.config (inv : Inv size s) :
    s.header.configBufSizeBytes = if s.stores.contains .configBufSizeBytes then 0 else size.position := by
  obtain ⟨done,split,header⟩ := inv.header
  rw [header]
  exact (header_cases split).1

theorem Inv.complete (inv : Inv size s) (initialized : s.header.initialized = true) : s.stores = [] := by
  obtain ⟨done,split,header⟩ := inv.header
  rw [header] at initialized
  exact (header_cases split).2 initialized

/-- A buffer that says so is the one that the other models start from. -/
theorem Inv.created (inv : Inv size s) (initialized : s.header.initialized = true) (data : Nat → UInt8) :
    s.header.ringBuffer data = some (.create size.position data) := by
  have complete := inv.complete initialized
  obtain ⟨done,split,header⟩ := inv.header
  rw [complete,List.append_nil] at split
  rw [header,split]
  rfl

/-- The assertion holds of a size that has not been stored as well. -/
theorem Inv.asserts (inv : Inv size s) : isZeroOrPowerOfTwo s.header.configBufSizeBytes = true := by
  rw [inv.config]
  split
  next => rfl
  next => exact isZeroOrPowerOfTwo_position size

theorem Inv.sized (inv : Inv size s) (next : Position → Phase) : Constructor.sized s.header next =
    next (indexMask (if s.stores.contains .configBufSizeBytes then 0 else size.position)) := by
  rw [Constructor.sized,if_pos inv.asserts,inv.config]

theorem Inv.constructor (inv : Inv size s) (ok : ConstructorOk size s.stores c)
    (stepped : c.next s.stores s.header free = some d) : ConstructorOk size s.stores d := by
  simp only [Constructor.next] at stepped
  split at stepped
  next =>
    obtain rfl := Option.some.inj stepped
    rw [inv.sized]
    rfl
  next indexMask checking =>
    obtain rfl := Option.some.inj stepped
    rw [ConstructorOk,checking] at ok
    split
    next initialized =>
      have complete := inv.complete initialized
      rw [Constructor.checked]
      split
      · exact ⟨ok,nofun⟩
      · exact ⟨ok,nofun⟩
      · exact ⟨ok,complete⟩
      · exact ⟨ok,nofun⟩
    next => trivial
  next indexMask again =>
    obtain rfl := Option.some.inj stepped
    rw [ConstructorOk,again] at ok
    obtain ⟨loaded,complete⟩ := ok
    rw [inv.sized,complete]
    exact ⟨loaded,fun mask own => (Option.some.inj own).symm⟩
  next indexMask own allocating =>
    obtain rfl := Option.some.inj stepped
    rw [ConstructorOk,allocating] at ok
    split
    next => exact ok
    next => trivial
  next => contradiction
  next => contradiction

theorem next_cases (stepped : next size s action = some t) :
    (∃ store stores, s.stores = store :: stores ∧
        t = { s with header := store.apply size s.header, stores := stores }) ∨
      (∃ k language kind, t = { s with
        constructors := Function.update s.constructors k (some ⟨language,kind,.sizing,false⟩) }) ∨
      ∃ k free c d, action = .step k free ∧ s.constructors k = some c ∧
        c.next s.stores s.header free = some d ∧
        t = { s with constructors := Function.update s.constructors k (some d) } := by
  cases action with
  | store =>
    simp only [next] at stepped
    split at stepped
    next store stores rest => exact Or.inl ⟨store,stores,rest,(Option.some.inj stepped).symm⟩
    next => contradiction
  | construct k language kind =>
    simp only [next] at stepped
    split at stepped
    next => exact Or.inr (Or.inl ⟨k,language,kind,(Option.some.inj stepped).symm⟩)
    next => contradiction
  | step k free =>
    obtain ⟨c,here,stepped⟩ := Option.bind_eq_some_iff.mp stepped
    obtain ⟨d,next,stepped⟩ := Option.bind_eq_some_iff.mp stepped
    exact Or.inr (Or.inr ⟨k,free,c,d,rfl,here,next,(Option.some.inj stepped).symm⟩)

theorem ConstructorOk.stored {store : InitStore} {stores : List InitStore}
    (ok : ConstructorOk size (store :: stores) c) : ConstructorOk size stores c := by
  rw [ConstructorOk] at ok ⊢
  split
  next => trivial
  next => trivial
  next phase => simpa only [phase] using ok
  next phase => simp [phase] at ok
  next phase => simpa only [phase] using ok
  next phase => simpa only [phase] using ok

theorem update_some {constructors : Nat → Option Constructor} {j : Nat}
    (here : Function.update constructors k (some d) j = some c) : c = d ∨ constructors j = some c := by
  by_cases same : j = k
  · rw [same,Function.update_self] at here
    exact Or.inl (Option.some.inj here).symm
  · rw [Function.update_of_ne same] at here
    exact Or.inr here

theorem Inv.step (inv : Inv size s) (stepped : next size s action = some t) : Inv size t := by
  rcases next_cases stepped with ⟨store,stores,rest,rfl⟩ | ⟨k,language,kind,rfl⟩ | ⟨k,free,c,d,_,here,next,rfl⟩
  · obtain ⟨done,split,header⟩ := inv.header
    refine ⟨⟨done ++ [store],?_,?_⟩,?_⟩
    · rw [List.append_assoc,List.singleton_append,← rest,split]
    · rw [List.foldl_append,← header]
      rfl
    · intro k c here
      have ok := inv.constructors k c here
      rw [rest] at ok
      exact ok.stored
  · refine ⟨inv.header,?_⟩
    intro j c there
    rcases update_some there with rfl | before
    · trivial
    · exact inv.constructors j c before
  · refine ⟨inv.header,?_⟩
    intro j e there
    rcases update_some there with rfl | before
    · exact inv.constructor (inv.constructors k c here) next
    · exact inv.constructors j e before

theorem inv_start (size : RingSize) : Inv size start := by
  exact ⟨⟨[],rfl,rfl⟩,nofun⟩

theorem reachable_inv (reached : Reachable (sys size) s) : Inv size s := by
  refine reached.invariant (Inv size) ?_ ?_
  · intro s new
    obtain rfl : s = start := new
    exact inv_start size
  · exact fun s action t inv stepped => inv.step stepped

theorem Inv.returned (inv : Inv size s) {indexMask : Position} {own : Option Position}
    (here : s.constructors k = some c) (returned : c.phase = .returned indexMask own) :
    (Sound size indexMask ↔ c.early = false) ∧ ∀ mask ∈ own, Sound size mask := by
  have ok := inv.constructors k c here
  rw [ConstructorOk,returned] at ok
  obtain ⟨loaded,second⟩ := ok
  constructor
  · rw [loaded]
    exact sound_loaded size c
  · intro mask its
    rw [second mask its]
    exact sound_indexMask size

theorem early_of_next {stores : List InitStore} {header : Header} (stepped : c.next stores header free = some d) :
    d.early = c.early ∨ c.phase = .sizing ∧ d.early = stores.contains .configBufSizeBytes := by
  simp only [Constructor.next] at stepped
  split at stepped
  next sizing =>
    obtain rfl := Option.some.inj stepped
    exact Or.inr ⟨sizing,rfl⟩
  next => exact Or.inl (Option.some.inj stepped ▸ rfl)
  next => exact Or.inl (Option.some.inj stepped ▸ rfl)
  next => exact Or.inl (Option.some.inj stepped ▸ rfl)
  next => contradiction
  next => contradiction

theorem early_step (late : ∀ k c, s.constructors k = some c → c.early = false) (ok : allowed s action = true)
    (stepped : next size s action = some t) : ∀ k c, t.constructors k = some c → c.early = false := by
  intro j e there
  rcases next_cases stepped with ⟨store,stores,_,rfl⟩ | ⟨k,language,kind,rfl⟩ | ⟨k,free,c,d,rfl,here,next,rfl⟩
  · exact late j e there
  · rcases update_some there with rfl | before
    · rfl
    · exact late j e before
  · rcases update_some there with rfl | before
    · rcases early_of_next next with same | ⟨sizing,early⟩
      · rw [same]
        exact late k c here
      · obtain ⟨language,kind,phase,_⟩ := c
        obtain rfl : phase = .sizing := sizing
        simp only [allowed,here,Bool.not_eq_true'] at ok
        rw [early,ok]
    · exact late j e before

theorem reachable_late (reached : Reachable ((sys size).restrict (fun s action => allowed s action = true)) s) :
    ∀ k c, s.constructors k = some c → c.early = false := by
  refine reached.invariant (fun s => ∀ k c, s.constructors k = some c → c.early = false) ?_ ?_
  · intro s new
    obtain rfl : s = start := new
    exact nofun
  · exact fun s action t late stepped => early_step late stepped.1 stepped.2

/-- Every constructor that returns has the mask of the ring in a run in which no size is loaded too early.
In any run it is the first load of the size that decides, and the mask that a C++ reader with back
pressure keeps itself is right. -/
theorem returned_sound (size : RingSize) :
    (∀ s, Reachable ((sys size).restrict (fun s action => allowed s action = true)) s → Safe size s) ∧
    ∀ s, Reachable (sys size) s → ∀ k c indexMask own, s.constructors k = some c →
      c.phase = .returned indexMask own →
      (Sound size indexMask ↔ c.early = false) ∧ ∀ mask ∈ own, Sound size mask := by
  constructor
  · intro s reached k c indexMask own here returned
    obtain ⟨iff,second⟩ := (reachable_inv reached.unrestrict).returned here returned
    exact ⟨iff.mpr (reachable_late reached k c here),second⟩
  · exact fun s reached k c indexMask own here returned => (reachable_inv reached).returned here returned

end

/-- A C++ reader with back pressure comes before the initialisation is finished, and returns behind it. -/
theorem returned_sound_started : ∃ (s : State) (c : Constructor) (indexMask : Position) (own : Position),
    s.constructors 0 = some c ∧ c.phase = .returned indexMask (some own) ∧ Sound ring16 indexMask ∧
      Sound ring16 own := by
  obtain ⟨s,reached,seen⟩ := exec_reaches (sys ring16) allowed (next ring16) (fun _ _ _ taken => taken)
    (s := start) rfl
    ([.construct 0 .cpp .readerWithBackpressure,.store,.step 0 true] ++ List.replicate 5 .store ++
      List.replicate 3 (.step 0 true))
    (fun s => s.constructors 0) (some ⟨.cpp,.readerWithBackpressure,.returned 15 (some 15),false⟩) rfl
  obtain ⟨sound,second⟩ := (returned_sound ring16).1 s reached 0 _ _ _ seen rfl
  exact ⟨s,_,_,_,seen,rfl,sound,second 15 rfl⟩

/-- The size is loaded before the first store and the flag behind the last one. -/
theorem not_returned_sound : ¬ ∀ (size : RingSize) (s : State), Reachable (sys size) s → Safe size s := by
  intro safe
  obtain ⟨s,reached,seen⟩ := exec_reaches (sys ring16) (fun _ _ => true) (next ring16)
    (fun _ _ _ taken => taken) (s := start) rfl
    ([.construct 0 .java .writer,.step 0 true] ++ List.replicate 6 .store ++ [.step 0 true])
    (fun s => s.constructors 0) (some ⟨.java,.writer,.returned (indexMask 0) none,true⟩) rfl
  exact not_sound_zero ring16 (safe ring16 s reached.unrestrict 0 _ _ _ seen rfl).1

end Toroni.Rmp.Initialization
