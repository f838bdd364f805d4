import EcoCompiler.WorkStealingDeque

/-! # The owner of the work-stealing deque

    The queue that the history describes lies in the current buffer from `top_` on, and
    `bottom_` is where it ends, except that a take has already moved `bottom_` back before it
    knows whether it gets the last entry.

    * `Deque.Ok`, `Owner.Ok`, `Thief.Ok` — what holds of the deque and of each thread;
    * `Kept` — what a step may do to the deque under a thief that is in the middle of a call;
    * `owner_step` — what one access by the owner preserves. -/

namespace WorkStealingDeque

open DequeHistory Threads

/-! ## Buffers -/

@[simp] theorem Buffer.set_mask (a : Buffer) (i : ℤ) (x : Slot) : (a.set i x).mask = a.mask := rfl

/-- A slot reads back what was written to it. -/
@[simp] theorem Buffer.get_set_self (a : Buffer) (i : ℤ) (x : Slot) : (a.set i x).get i = x :=
  Function.update_self ..

/-- The mask takes a position modulo the number of slots. -/
theorem Buffer.slot_eq_mod (a : Buffer) (n : ℕ) : n &&& a.mask = n % (a.mask + 1) := by
  obtain ⟨log, hlog⟩ := a.pow
  have hmask : a.mask = 2 ^ log - 1 := by omega
  rw [hlog, hmask, Nat.and_two_pow_sub_one_eq_mod]

/-- Positions less than a buffer apart have slots of their own. -/
theorem Buffer.get_set_of_near (a : Buffer) {i j : ℤ} (x : Slot) (hi : 0 ≤ i) (hj : 0 ≤ j)
    (hne : i ≠ j) (hij : i - j ≤ a.mask) (hji : j - i ≤ a.mask) :
    (a.set i x).get j = a.get j := by
  refine Function.update_of_ne (fun h => hne ?_) ..
  rw [Buffer.set_mask, a.slot_eq_mod, a.slot_eq_mod] at h
  lift i to ℕ using hi
  lift j to ℕ using hj
  simp only [Int.toNat_natCast] at h
  have hdvd : ((a.mask + 1 : ℕ) : ℤ) ∣ (j : ℤ) - i := (Nat.modEq_iff_dvd).mp h.symm
  have hzero : (j : ℤ) - i = 0 := by
    refine Int.eq_zero_of_abs_lt_dvd hdvd ?_
    rw [abs_lt]
    constructor <;> push_cast <;> omega
  omega

/-- The loop of `growLog` finds the logarithm of the capacity. -/
theorem growLog_eq {k fuel log : ℕ} (hlog : log ≤ k) (hfuel : k ≤ fuel + log) :
    growLog (2 ^ k - 1) fuel log = k := by
  induction fuel generalizing log with
  | zero =>
    rw [growLog]
    omega
  | succ fuel ih =>
    have hpos := Nat.one_le_two_pow (n := k)
    rw [growLog]
    split
    · next h =>
      refine ih ?_ (by omega)
      exact (Nat.pow_lt_pow_iff_right Nat.one_lt_two).mp (by omega : 2 ^ log < 2 ^ k)
    · next h =>
      rcases hlog.eq_or_lt with rfl | hlt
      · rfl
      · have := (Nat.pow_lt_pow_iff_right Nat.one_lt_two).mpr hlt
        omega

/-- The new buffer has twice the slots. -/
theorem Buffer.grown_mask (a : Buffer) : a.grown.mask = 2 * a.mask + 1 := by
  obtain ⟨log, hlog⟩ := a.pow
  have hmask : a.mask = 2 ^ log - 1 := by omega
  have hfuel : log ≤ a.mask + 1 + 0 := by
    have := Nat.lt_two_pow_self (n := log)
    omega
  have hgrow := growLog_eq (Nat.zero_le log) hfuel
  rw [← hmask] at hgrow
  have hpow : 2 ^ (log + 1) = 2 * 2 ^ log := by rw [pow_succ, Nat.mul_comm]
  have hgrown : a.grown.mask = 2 ^ (growLog a.mask (a.mask + 1) 0 + 1) - 1 := rfl
  rw [hgrown, hgrow]
  omega

/-- The queue `q` lies in the buffer from position `t` on. -/
def Buffer.Holds (a : Buffer) (t : ℤ) (q : List Slot) : Prop :=
  ∀ (k : ℕ) x, q[k]? = some x → a.get (t + k) = x

/-- The oldest entry lies at the top. -/
theorem Buffer.Holds.head {a : Buffer} {t : ℤ} {q : List Slot} {x : Slot} (h : a.Holds t q)
    (hx : q.head? = some x) : a.get t = x := by
  rw [List.head?_eq_getElem?] at hx
  have := h 0 x hx
  rwa [Nat.cast_zero, add_zero] at this

/-- One step up, the buffer holds the rest. -/
theorem Buffer.Holds.tail {a : Buffer} {t : ℤ} {q : List Slot} (h : a.Holds t q) :
    a.Holds (t + 1) q.tail := by
  intro k x hx
  rw [List.getElem?_tail] at hx
  have := h (k + 1) x hx
  rwa [Nat.cast_succ, add_comm (k : ℤ), ← add_assoc] at this

/-- Without its newest entry the rest is still held. -/
theorem Buffer.Holds.dropLast {a : Buffer} {t : ℤ} {q : List Slot} (h : a.Holds t q) :
    a.Holds t q.dropLast := by
  intro k x hx
  refine h k x ?_
  rw [List.getElem?_dropLast] at hx
  split at hx
  · exact hx
  · cases hx

/-- With an entry just past the newest, the longer queue is held. -/
theorem Buffer.Holds.append {a : Buffer} {t : ℤ} {q : List Slot} {x : Slot} (h : a.Holds t q)
    (hx : a.get (t + q.length) = x) : a.Holds t (q ++ [x]) := by
  intro k y hy
  rcases Nat.lt_trichotomy k q.length with hk | rfl | hk
  · rw [List.getElem?_append_left hk] at hy
    exact h k y hy
  · rw [List.getElem?_concat_length] at hy
    rw [hx]
    exact Option.some.inj hy
  · rw [List.getElem?_eq_none (by simp; omega)] at hy
    cases hy

/-- The last entry is the one before the end. -/
theorem Buffer.Holds.getLast? {a : Buffer} {t : ℤ} {q : List Slot} (h : a.Holds t q)
    {b : ℤ} (hb : t + q.length = b + 1) (hne : q ≠ []) : q.getLast? = some (a.get b) := by
  have hlen := List.length_pos_of_ne_nil hne
  rw [List.getLast?_eq_getElem?]
  have hlast : q[q.length - 1]? = some q[q.length - 1] := List.getElem?_eq_getElem (by omega)
  have hget := h _ _ hlast
  have hpos : t + ((q.length - 1 : ℕ) : ℤ) = b := by omega
  rw [hpos] at hget
  rw [hlast, hget]

/-- Two buffers that agree on the queue's positions hold the same queue. -/
theorem Buffer.Holds.congr {a a' : Buffer} {t : ℤ} {q : List Slot} (h : a.Holds t q)
    (same : ∀ i, t ≤ i → i < t + q.length → a'.get i = a.get i) : a'.Holds t q := by
  intro k x hx
  have hk := (List.getElem?_eq_some_iff.mp hx).1
  rw [same _ (by omega) (by omega)]
  exact h k x hx

/-! ## The history -/

section

variable {ι : Type}

/-- The queue that the history describes. -/
def Deque.content (d : Deque ι) : List Slot := DequeHistory.content (ops d.log)

@[simp] theorem ops_pushed (x : Slot) (log : List (Event ι)) :
    ops (.pushed x :: log) = .push x :: ops log := rfl

@[simp] theorem ops_took (x : Slot) (log : List (Event ι)) :
    ops (.took x :: log) = .pop x :: ops log := rfl

@[simp] theorem ops_stole (i : ι) (x : Slot) (log : List (Event ι)) :
    ops (.stole i x :: log) = .shift x :: ops log := rfl

@[simp] theorem ops_takeCalled (log : List (Event ι)) : ops (.takeCalled :: log) = ops log := rfl

@[simp] theorem ops_takeReturned (r : Result) (log : List (Event ι)) :
    ops (.takeReturned r :: log) = ops log := rfl

@[simp] theorem ops_stealReturned (i : ι) (r : Result) (log : List (Event ι)) :
    ops (.stealReturned i r :: log) = ops log := rfl

/-- The entry in a result. -/
def Result.slots : Result → List Slot
  | .entry x => [x]
  | _ => []

theorem returned_takeReturned (r : Result) (log : List (Event ι)) :
    returned (.takeReturned r :: log) = r.slots ++ returned log := by
  cases r <;> rfl

theorem returned_stealReturned (i : ι) (r : Result) (log : List (Event ι)) :
    returned (.stealReturned i r :: log) = r.slots ++ returned log := by
  cases r <;> rfl

/-- Every take that returned `kEmpty` found the deque emptied. -/
def Excused (log : List (Event ι)) : Prop :=
  ∀ older, .takeReturned .kEmpty :: older <:+ log → Emptied older

/-- An event keeps the log excused unless it answers empty without cause. -/
theorem Excused.cons {e : Event ι} {log : List (Event ι)} (h : Excused log)
    (he : e = .takeReturned .kEmpty → Emptied log) : Excused (e :: log) := by
  intro older hsuf
  rcases List.suffix_cons_iff.mp hsuf with heq | hsuf
  · obtain ⟨rfl, rfl⟩ := List.cons.inj heq
    exact he rfl
  · exact h older hsuf

/-- What holds of the history while the owner has made the entries `hand` its own but has not
    returned them. -/
structure HistoryOk (log : List (Event ι)) (hand : List Slot) : Prop where
  legal : Legal (ops log)
  numbered : (pushed (ops log)).map (Option.map Entry.number)
    = (List.range (pushed (ops log)).length).map some
  returned : (returned log ++ hand).Perm (removed (ops log))
  excused : Excused log

namespace HistoryOk

variable {log : List (Event ι)} {hand : List Slot}

theorem nil : HistoryOk ([] : List (Event ι)) [] where
  legal := trivial
  numbered := rfl
  returned := List.Perm.nil
  excused older h := by cases List.eq_nil_of_suffix_nil h

/-- A push of the next number keeps the history. -/
theorem push {e : Entry} (h : HistoryOk log hand) (he : e.number = (pushed (ops log)).length) :
    HistoryOk (.pushed (some e) :: log) hand where
  legal := h.legal
  numbered := by
    simp only [ops_pushed, pushed, List.map_append, h.numbered, List.length_append,
      List.length_singleton, List.range_succ]
    simp [he]
  returned := h.returned
  excused := h.excused.cons (by rintro ⟨⟩)

/-- Taking the newest entry keeps the history, with that entry in hand. -/
theorem take {x : Slot} (h : HistoryOk log [])
    (last : (content (ops log)).getLast? = some x) : HistoryOk (.took x :: log) [x] where
  legal := ⟨h.legal, last⟩
  numbered := h.numbered
  returned := by
    have hperm := h.returned
    rw [List.append_nil] at hperm
    exact (List.perm_append_singleton x _).trans (hperm.cons x)
  excused := h.excused.cons (by rintro ⟨⟩)

/-- Stealing the oldest entry keeps the history. -/
theorem steal {i : ι} {x : Slot} (h : HistoryOk log hand)
    (head : (content (ops log)).head? = some x) :
    HistoryOk (.stealReturned i (.entry x) :: .stole i x :: log) hand where
  legal := ⟨h.legal, head⟩
  numbered := h.numbered
  returned := h.returned.cons x
  excused := by
    have stole : Excused (.stole i x :: log) := h.excused.cons (by rintro ⟨⟩)
    exact stole.cons (by rintro ⟨⟩)

/-- A take that returns what is in hand keeps the history. -/
theorem takeReturned {r : Result} (h : HistoryOk log r.slots)
    (empty : r = .kEmpty → Emptied log) : HistoryOk (.takeReturned r :: log) [] where
  legal := h.legal
  numbered := h.numbered
  returned := by
    rw [returned_takeReturned, List.append_nil]
    exact List.perm_append_comm.trans h.returned
  excused := by
    refine h.excused.cons fun heq => empty ?_
    injection heq

/-- The start of a take keeps the history. -/
theorem takeCalled (h : HistoryOk log hand) : HistoryOk (.takeCalled :: log) hand where
  legal := h.legal
  numbered := h.numbered
  returned := h.returned
  excused := h.excused.cons (by rintro ⟨⟩)

/-- A steal that returns nothing keeps the history. -/
theorem stealReturned {i : ι} {r : Result} (h : HistoryOk log hand) (none : r.slots = []) :
    HistoryOk (.stealReturned i r :: log) hand where
  legal := h.legal
  numbered := h.numbered
  returned := by
    rw [returned_stealReturned, none]
    exact h.returned
  excused := h.excused.cons (by rintro ⟨⟩)

end HistoryOk

/-! ## What holds of the deque -/

/-- While `owed` entries at the end of the queue lie past the bottom. -/
structure Deque.Ok (d : Deque ι) (owed : ℤ) : Prop where
  top_nonneg : 0 ≤ d.top
  bottom : d.top + d.content.length = d.bottom + owed
  holds : (d.arrays d.array).Holds d.top d.content
  fits : d.content.length ≤ (d.arrays d.array).mask + 1

/-- What a step may do to the deque while a thief is between two accesses: an oldest entry
    that is still the oldest one lies in every buffer where it lay. -/
structure Kept (d d' : Deque ι) : Prop where
  top : d.top ≤ d'.top
  array : d.array ≤ d'.array
  head : d'.top = d.top → ∀ x, d.content.head? = some x → d'.content.head? = some x ∧
    ∀ a ≤ d.array, (d'.arrays a).get d.top = (d.arrays a).get d.top

/-- A step that changes neither the top, the buffers nor the queue. -/
theorem Kept.of_eq {d d' : Deque ι} (top : d'.top = d.top) (array : d'.array = d.array)
    (arrays : d'.arrays = d.arrays) (content : d'.content = d.content) : Kept d d' where
  top := top.ge
  array := array.ge
  head _ x hx := ⟨content ▸ hx, fun a _ => by rw [arrays]⟩

/-- A step that moves the top. -/
theorem Kept.of_lt {d d' : Deque ι} (top : d.top < d'.top) (array : d'.array = d.array) :
    Kept d d' where
  top := top.le
  array := array.ge
  head h := absurd h top.ne'

/-- What a thief has read is what is there, as long as the top is where it was. -/
def Thief.Ok (d : Deque ι) : Thief → Prop
  | .idle => True
  | .steal => True
  | .stealBottom t => t ≤ d.top
  | .stealArray t => t ≤ d.top ∧ (d.top = t → ∃ x, d.content.head? = some x)
  | .stealSlot t a => t ≤ d.top ∧ a ≤ d.array ∧
      (d.top = t → ∃ x, d.content.head? = some x ∧ (d.arrays a).get t = x)
  | .stealCas t x => t ≤ d.top ∧ (d.top = t → d.content.head? = some x)

/-- A step of another thread keeps what a thief has read. -/
theorem Thief.Ok.kept {d d' : Deque ι} {w : Thief} (h : w.Ok d) (kept : Kept d d') : w.Ok d' := by
  have top := kept.top
  cases w with
  | idle => trivial
  | steal => trivial
  | stealBottom t => exact le_trans h top
  | stealArray t =>
    refine ⟨h.1.trans top, fun heq => ?_⟩
    have hd : d.top = t := le_antisymm (heq ▸ top) h.1
    obtain ⟨x, hx⟩ := h.2 hd
    exact ⟨x, (kept.head (by rw [heq, hd]) x hx).1⟩
  | stealSlot t a =>
    refine ⟨h.1.trans top, h.2.1.trans kept.array, fun heq => ?_⟩
    have hd : d.top = t := le_antisymm (heq ▸ top) h.1
    obtain ⟨x, hx, hget⟩ := h.2.2 hd
    obtain ⟨hhead, harrays⟩ := kept.head (by rw [heq, hd]) x hx
    refine ⟨x, hhead, ?_⟩
    have := harrays a h.2.1
    rw [hd] at this
    rw [this, hget]
  | stealCas t x =>
    refine ⟨h.1.trans top, fun heq => ?_⟩
    have hd : d.top = t := le_antisymm (heq ▸ top) h.1
    exact (kept.head (by rw [heq, hd]) x (h.2 hd)).1

/-! ## What holds of the owner -/

/-- The entries past the bottom. -/
def Owner.owed : Owner → ℤ
  | .takeTop _ _ => 1
  | .takeSlot b _ t => if t = b then 1 else 0
  | .takeCas _ _ _ => 1
  | .takeBack _ _ => 1
  | _ => 0

/-- The entries that a take has made the owner's and will return. -/
def Owner.hand (d : Deque ι) : Owner → List Slot
  | .takeSlot b a t => if t = b then [] else [(d.arrays a).get b]
  | .takeBack _ r => r.slots
  | _ => []

/-- In a push that has read the bottom and the top. -/
structure Pushing (d : Deque ι) (e : Entry) (b t : ℤ) : Prop where
  number : e.number = (pushed (ops d.log)).length
  bottom : b = d.bottom
  nonneg : 0 ≤ t
  top : t ≤ d.top
  window : b - t ≤ (d.arrays d.array).mask + 1

/-- The new buffer of `grow` has the positions before `i`. -/
structure Copied (d : Deque ι) (t i : ℤ) (na : Buffer) : Prop where
  le : t ≤ i
  mask : na.mask = 2 * (d.arrays d.array).mask + 1
  get : ∀ j, t ≤ j → j < i → na.get j = (d.arrays d.array).get j

/-- In a take: an empty deque has been emptied since the take began. -/
def Watched (d : Deque ι) : Prop := d.content = [] → Emptied d.log

/-- What the owner has read is what is there. -/
def Owner.Ok (d : Deque ι) : Owner → Prop
  | .idle => True
  | .push e => e.number = (pushed (ops d.log)).length
  | .pushTop e b => e.number = (pushed (ops d.log)).length ∧ b = d.bottom
  | .pushArray e b t => Pushing d e b t
  | .growLoad e b t a na i => Pushing d e b t ∧ a = d.array ∧ i < b ∧ Copied d t i na
  | .growStore e b t a na i x =>
    Pushing d e b t ∧ a = d.array ∧ i < b ∧ Copied d t i na ∧ x = (d.arrays a).get i
  | .growInstall e b t na => Pushing d e b t ∧ Copied d t b na
  | .pushSlot e b t a => Pushing d e b t ∧ a = d.array ∧ b - t ≤ (d.arrays d.array).mask
  | .pushBottom e b =>
    e.number = (pushed (ops d.log)).length ∧ b = d.bottom ∧
      d.content.length ≤ (d.arrays d.array).mask ∧ (d.arrays d.array).get b = some e
  | .take => Watched d
  | .takeArray b => b + 1 = d.bottom ∧ Watched d
  | .takeBottom b a => b + 1 = d.bottom ∧ a = d.array ∧ Watched d
  | .takeTop b a => b = d.bottom ∧ a = d.array ∧ Watched d
  | .takeSlot b a t =>
    b = d.bottom ∧ a = d.array ∧ t ≤ d.top ∧ t ≤ b ∧ (t = b → Watched d)
  | .takeCas b t x =>
    b = d.bottom ∧ t = b ∧ t ≤ d.top ∧ (d.top = t → d.content = [x]) ∧ Watched d
  | .takeBack b r => b = d.bottom ∧ d.content = [] ∧ (r = .kEmpty → Emptied d.log)

/-- What holds of the deque, its history and its owner together. -/
structure Held (d : Deque ι) (o : Owner) : Prop where
  deque : d.Ok o.owed
  history : HistoryOk d.log (o.hand d)
  owner : o.Ok d

/-! ## The owner's accesses -/

section

variable {d d' : Deque ι} {o o' : Owner} {e : Entry} {b t i : ℤ} {a : ℕ} {na : Buffer} {x : Slot}

/-- The array just installed is the current one. -/
theorem Deque.install_arrays_self (d : Deque ι) (na : Buffer) :
    (d.install na).arrays (d.install na).array = na := Function.update_self ..

/-- The earlier arrays stay readable as they were. -/
theorem Deque.install_arrays_of_le (d : Deque ι) (na : Buffer) {k : ℕ} (h : k ≤ d.array) :
    (d.install na).arrays k = d.arrays k := Function.update_of_ne (by omega) ..

theorem Deque.store_arrays_self (d : Deque ι) (a : ℕ) (i : ℤ) (x : Slot) :
    (d.store a i x).arrays a = (d.arrays a).set i x := Function.update_self ..

/-- A store leaves the other arrays alone. -/
theorem Deque.store_arrays_of_ne (d : Deque ι) {a k : ℕ} (i : ℤ) (x : Slot) (h : k ≠ a) :
    (d.store a i x).arrays k = d.arrays k := Function.update_of_ne h ..

/-- Between calls a push may begin. -/
theorem Deque.Ok.window (h : d.Ok 0) (num : e.number = (pushed (ops d.log)).length) :
    Pushing d e d.bottom d.top where
  number := num
  bottom := rfl
  nonneg := h.top_nonneg
  top := le_rfl
  window := by
    have := h.bottom
    have := h.fits
    omega

/-- The loop of `grow` goes on, or the new buffer has every position. -/
theorem held_copy (deque : d.Ok 0) (history : HistoryOk d.log []) (push : Pushing d e b t)
    (copied : Copied d t i na) (le : i ≤ b) :
    Held d (Owner.copy e b t d.array na i) := by
  rw [Owner.copy]
  split
  · next hi => exact ⟨deque, history, push, rfl, hi, copied⟩
  · next hi =>
    have hib : i = b := by omega
    subst hib
    exact ⟨deque, history, push, copied⟩

/-- Nothing is copied yet and nothing needs to be. -/
theorem Copied.grown : Copied d t t (d.arrays d.array).grown where
  le := le_rfl
  mask := Buffer.grown_mask _
  get j hj hlt := absurd hlt (by omega)

/-- Copying one slot goes one slot further. -/
theorem Copied.next (h : Copied d t i na) (push : Pushing d e b t) (lt : i < b) :
    Copied d t (i + 1) (na.set i ((d.arrays d.array).get i)) where
  le := by
    have := h.le
    omega
  mask := h.mask
  get j hj hlt := by
    have nonneg := push.nonneg
    have window := push.window
    have mask := h.mask
    rcases (Int.lt_add_one_iff.mp hlt).eq_or_lt with rfl | hlt
    · exact Buffer.get_set_self ..
    · rw [Buffer.get_set_of_near na _ (by omega) (by omega) (by omega) (by omega) (by omega)]
      exact h.get j hj hlt

/-- `pushArray`: the buffer has room, or `grow` begins. -/
theorem held_pushArray (h : Held d (.pushArray e b t))
    (hstep : Owner.step d (.pushArray e b t) = some (d', o')) : Held d' o' ∧ Kept d d' := by
  have push : Pushing d e b t := h.owner
  simp only [Owner.step] at hstep
  split at hstep
  · next full =>
    obtain ⟨rfl, rfl⟩ := Prod.mk.inj (Option.some.inj hstep)
    exact ⟨held_copy h.deque h.history push Copied.grown (by omega), .of_eq rfl rfl rfl rfl⟩
  · next room =>
    obtain ⟨rfl, rfl⟩ := Prod.mk.inj (Option.some.inj hstep)
    exact ⟨⟨h.deque, h.history, push, rfl, by omega⟩, .of_eq rfl rfl rfl rfl⟩

/-- `growInstall`: the new buffer holds the queue, and there is room in it. -/
theorem held_growInstall (h : Held d (.growInstall e b t na)) :
    Held (d.install na) (.pushSlot e b t (d.array + 1)) ∧ Kept d (d.install na) := by
  obtain ⟨push, copied⟩ := h.owner
  have deque : d.Ok 0 := h.deque
  have harray := d.install_arrays_self na
  have mask := copied.mask
  have top := push.top
  have bottom := push.bottom
  have len := deque.bottom
  have window := push.window
  refine ⟨⟨⟨deque.top_nonneg, deque.bottom, ?_, ?_⟩, h.history, ?_⟩, ⟨le_rfl, ?_, ?_⟩⟩
  · rw [harray]
    refine deque.holds.congr fun j hj hlt => copied.get j (by omega) (by omega)
  · have fits := deque.fits
    rw [harray]
    exact fits.trans (by omega)
  · refine ⟨⟨push.number, bottom, push.nonneg, top, ?_⟩, rfl, ?_⟩
    · rw [harray]
      omega
    · rw [harray]
      omega
  · exact Nat.le_succ _
  · intro _ x hx
    refine ⟨hx, fun k hk => ?_⟩
    rw [d.install_arrays_of_le na hk]

/-- `pushSlot`: the slot is none of the queue's. -/
theorem held_pushSlot (h : Held d (.pushSlot e b t a)) :
    Held (d.store a b (some e)) (.pushBottom e b) ∧ Kept d (d.store a b (some e)) := by
  obtain ⟨push, rfl, room⟩ := h.owner
  have deque : d.Ok 0 := h.deque
  have harray : (d.store d.array b (some e)).arrays (d.store d.array b (some e)).array
      = (d.arrays d.array).set b (some e) := d.store_arrays_self ..
  have nonneg := push.nonneg
  have top := push.top
  have bottom := push.bottom
  have len := deque.bottom
  -- the slot lies past the last entry and less than a lap from the first
  have same : ∀ j, d.top ≤ j → j < d.top + d.content.length →
      ((d.arrays d.array).set b (some e)).get j = (d.arrays d.array).get j := by
    intro j hj hlt
    refine Buffer.get_set_of_near _ _ ?_ ?_ ?_ ?_ ?_ <;> omega
  refine ⟨⟨⟨deque.top_nonneg, deque.bottom, ?_, ?_⟩, h.history, ?_⟩, ⟨le_rfl, le_rfl, ?_⟩⟩
  · rw [harray]
    exact deque.holds.congr same
  · rw [harray]
    exact deque.fits
  · refine ⟨push.number, bottom, ?_, ?_⟩
    · have hlen : d.content.length ≤ (d.arrays d.array).mask := by omega
      rw [harray]
      exact hlen
    · rw [harray]
      exact Buffer.get_set_self ..
  · intro _ x hx
    refine ⟨hx, fun k _ => ?_⟩
    have hpos : 0 < d.content.length := by
      obtain ⟨back, hback⟩ := List.head?_eq_some_iff.mp hx
      rw [hback]
      exact Nat.succ_pos _
    by_cases hk : k = d.array
    · subst hk
      have hget := same d.top le_rfl (by omega)
      rw [← harray] at hget
      exact hget
    · rw [d.store_arrays_of_ne b (some e) hk]

/-- `pushBottom`: the entry joins the queue. -/
theorem held_pushBottom (h : Held d (.pushBottom e b))
    (hstep : Owner.step d (.pushBottom e b) = some (d', o')) : Held d' o' ∧ Kept d d' := by
  obtain ⟨num, hb, room, hget⟩ := h.owner
  have deque : d.Ok 0 := h.deque
  have len := deque.bottom
  simp only [Owner.step] at hstep
  obtain ⟨rfl, rfl⟩ := Prod.mk.inj (Option.some.inj hstep)
  have hend : d.top + d.content.length = b := by omega
  refine ⟨⟨⟨deque.top_nonneg, ?_, ?_, ?_⟩, ?_, trivial⟩, ⟨le_rfl, le_rfl, ?_⟩⟩
  · have : (d.content ++ [some e]).length = d.content.length + 1 := by simp
    have goal : d.top + ((d.content ++ [some e]).length : ℤ) = b + 1 + 0 := by
      rw [this]
      omega
    exact goal
  · exact deque.holds.append (by rw [hend]; exact hget)
  · have : (d.content ++ [some e]).length ≤ (d.arrays d.array).mask + 1 := by
      simp
      exact room
    exact this
  · exact h.history.push num
  · intro _ x hx
    refine ⟨?_, fun _ _ => rfl⟩
    obtain ⟨back, hback⟩ := List.head?_eq_some_iff.mp hx
    have goal : (d.content ++ [some e]).head? = some x := by
      rw [hback]
      rfl
    exact goal

/-- `takeTop`: the last entry is the owner's, or a thief may still take it, or there is
    none. -/
theorem held_takeTop (h : Held d (.takeTop b a))
    (hstep : Owner.step d (.takeTop b a) = some (d', o')) : Held d' o' ∧ Kept d d' := by
  obtain ⟨hb, rfl, watched⟩ := h.owner
  have deque : d.Ok 1 := h.deque
  have len := deque.bottom
  simp only [Owner.step] at hstep
  split at hstep
  · next lt =>
    obtain ⟨rfl, rfl⟩ := Prod.mk.inj (Option.some.inj hstep)
    have two : 2 ≤ d.content.length := by omega
    have hne : d.content ≠ [] := List.ne_nil_of_length_pos (by omega)
    have last := deque.holds.getLast? (b := b) (by omega) hne
    have hdrop : d.content.dropLast.length = d.content.length - 1 := List.length_dropLast ..
    have howed : (Owner.takeSlot b d.array d.top).owed = 0 := if_neg lt.ne
    have hhand : (Owner.takeSlot b d.array d.top).hand
        (d.record (.took ((d.arrays d.array).get b))) = [(d.arrays d.array).get b] := if_neg lt.ne
    refine ⟨⟨⟨deque.top_nonneg, ?_, deque.holds.dropLast, ?_⟩, ?_, ?_⟩, ⟨le_rfl, le_rfl, ?_⟩⟩
    · have goal : d.top + (d.content.dropLast.length : ℤ) = d.bottom + 0 := by omega
      rw [howed]
      exact goal
    · have fits := deque.fits
      have goal : d.content.dropLast.length ≤ (d.arrays d.array).mask + 1 := by omega
      exact goal
    · rw [hhand]
      exact h.history.take last
    · exact ⟨hb, rfl, le_rfl, lt.le, fun heq => absurd heq lt.ne⟩
    · intro _ x hx
      refine ⟨?_, fun _ _ => rfl⟩
      -- at least two entries: the first is not the one taken
      have goal : d.content.dropLast.head? = some x := by
        rw [List.head?_eq_getElem?, List.getElem?_dropLast, if_pos (by omega),
          ← List.head?_eq_getElem?]
        exact hx
      exact goal
  · next notlt =>
    split at hstep
    · next heq =>
      obtain ⟨rfl, rfl⟩ := Prod.mk.inj (Option.some.inj hstep)
      refine ⟨⟨?_, ?_, hb, rfl, le_rfl, heq.le, fun _ => watched⟩, .of_eq rfl rfl rfl rfl⟩
      · rw [Owner.owed, if_pos heq]
        exact deque
      · rw [Owner.hand, if_pos heq]
        exact h.history
    · next hne =>
      obtain ⟨rfl, rfl⟩ := Prod.mk.inj (Option.some.inj hstep)
      have empty : d.content = [] := List.eq_nil_of_length_eq_zero (by omega)
      exact ⟨⟨deque, h.history, hb, empty, fun _ => watched empty⟩, .of_eq rfl rfl rfl rfl⟩

/-- `takeSlot`: the entry is the owner's already, or the race for it is still open. -/
theorem held_takeSlot (h : Held d (.takeSlot b a t))
    (hstep : Owner.step d (.takeSlot b a t) = some (d', o')) : Held d' o' ∧ Kept d d' := by
  obtain ⟨hb, rfl, top, le, watched⟩ := h.owner
  have deque := h.deque
  have history := h.history
  simp only [Owner.step] at hstep
  split at hstep
  · next heq =>
    obtain ⟨rfl, rfl⟩ := Prod.mk.inj (Option.some.inj hstep)
    rw [Owner.owed, if_pos heq] at deque
    rw [Owner.hand, if_pos heq] at history
    refine ⟨⟨deque, history, hb, heq, top, fun htop => ?_, watched heq⟩, .of_eq rfl rfl rfl rfl⟩
    have len := deque.bottom
    obtain ⟨x, hx⟩ := List.length_eq_one_iff.mp (by omega : d.content.length = 1)
    have hhead : d.content.head? = some x := by
      rw [hx]
      rfl
    have hget := deque.holds.head hhead
    rw [htop, heq] at hget
    rw [hget, hx]
  · next hne =>
    obtain ⟨rfl, rfl⟩ := Prod.mk.inj (Option.some.inj hstep)
    rw [Owner.owed, if_neg hne] at deque
    rw [Owner.hand, if_neg hne] at history
    refine ⟨⟨⟨deque.top_nonneg, deque.bottom, deque.holds, deque.fits⟩, ?_, trivial⟩,
      .of_eq rfl rfl rfl rfl⟩
    exact HistoryOk.takeReturned (r := .entry _) history (by rintro ⟨⟩)

/-- `takeCas`: the last entry is the owner's, or a thief was faster. -/
theorem held_takeCas (h : Held d (.takeCas b t x))
    (hstep : Owner.step d (.takeCas b t x) = some (d', o')) : Held d' o' ∧ Kept d d' := by
  obtain ⟨hb, htb, top, single, watched⟩ := h.owner
  have deque : d.Ok 1 := h.deque
  have len := deque.bottom
  simp only [Owner.step] at hstep
  split at hstep
  -- no thief moved the top: the last entry goes to the owner
  · next htop =>
    obtain ⟨rfl, rfl⟩ := Prod.mk.inj (Option.some.inj hstep)
    have hx := single htop
    have htail : d.content.dropLast = [] := by
      rw [hx]
      rfl
    refine ⟨⟨⟨?_, ?_, ?_, ?_⟩, ?_, hb, htail, (by rintro ⟨⟩)⟩, .of_lt ?_ rfl⟩
    · have nonneg := deque.top_nonneg
      have goal : 0 ≤ t + 1 := by omega
      exact goal
    · have goal : t + 1 + (d.content.dropLast.length : ℤ) = d.bottom + 1 := by
        rw [htail, List.length_nil]
        omega
      exact goal
    · have goal : (d.arrays d.array).Holds (t + 1) d.content.dropLast := by
        rw [htail]
        intro k y hy
        cases hy
      exact goal
    · have goal : d.content.dropLast.length ≤ (d.arrays d.array).mask + 1 := by
        rw [htail]
        exact Nat.zero_le _
      exact goal
    · have last : d.content.getLast? = some x := by
        rw [hx]
        rfl
      exact h.history.take last
    · have goal : d.top < t + 1 := by omega
      exact goal
  -- a thief has taken it, and nothing is left
  · next hne =>
    obtain ⟨rfl, rfl⟩ := Prod.mk.inj (Option.some.inj hstep)
    have empty : d.content = [] := List.eq_nil_of_length_eq_zero (by omega)
    exact ⟨⟨deque, h.history, hb, empty, fun _ => watched empty⟩, .of_eq rfl rfl rfl rfl⟩

/-- `takeBack`: the bottom is back where the queue ends. -/
theorem held_takeBack {r : Result} (h : Held d (.takeBack b r))
    (hstep : Owner.step d (.takeBack b r) = some (d', o')) : Held d' o' ∧ Kept d d' := by
  obtain ⟨hb, empty, emptied⟩ := h.owner
  have deque : d.Ok 1 := h.deque
  have len := deque.bottom
  simp only [Owner.step] at hstep
  obtain ⟨rfl, rfl⟩ := Prod.mk.inj (Option.some.inj hstep)
  refine ⟨⟨⟨deque.top_nonneg, ?_, deque.holds, deque.fits⟩, ?_, trivial⟩, .of_eq rfl rfl rfl rfl⟩
  · have goal : d.top + (d.content.length : ℤ) = b + 1 + 0 := by omega
    exact goal
  · exact h.history.takeReturned emptied

/-- One access by the owner. -/
theorem owner_step (h : Held d o) (hstep : o.step d = some (d', o')) :
    Held d' o' ∧ Kept d d' := by
  -- one case for each access of the owner; those that touch shared state have lemmas above
  cases o with
  | idle => cases hstep
  | push e =>
    obtain ⟨rfl, rfl⟩ := Prod.mk.inj (Option.some.inj hstep)
    exact ⟨⟨h.deque, h.history, h.owner, rfl⟩, .of_eq rfl rfl rfl rfl⟩
  | pushTop e b =>
    obtain ⟨rfl, rfl⟩ := Prod.mk.inj (Option.some.inj hstep)
    obtain ⟨num, rfl⟩ := h.owner
    have deque : d.Ok 0 := h.deque
    exact ⟨⟨h.deque, h.history, deque.window num⟩, .of_eq rfl rfl rfl rfl⟩
  | pushArray e b t => exact held_pushArray h hstep
  | growLoad e b t a na i =>
    obtain ⟨rfl, rfl⟩ := Prod.mk.inj (Option.some.inj hstep)
    obtain ⟨push, rfl, lt, copied⟩ := h.owner
    exact ⟨⟨h.deque, h.history, push, rfl, lt, copied, rfl⟩, .of_eq rfl rfl rfl rfl⟩
  | growStore e b t a na i x =>
    obtain ⟨rfl, rfl⟩ := Prod.mk.inj (Option.some.inj hstep)
    obtain ⟨push, rfl, lt, copied, rfl⟩ := h.owner
    exact ⟨held_copy h.deque h.history push (copied.next push lt) (by omega),
      .of_eq rfl rfl rfl rfl⟩
  | growInstall e b t na =>
    obtain ⟨rfl, rfl⟩ := Prod.mk.inj (Option.some.inj hstep)
    exact held_growInstall h
  | pushSlot e b t a =>
    obtain ⟨rfl, rfl⟩ := Prod.mk.inj (Option.some.inj hstep)
    exact held_pushSlot h
  | pushBottom e b => exact held_pushBottom h hstep
  | take =>
    obtain ⟨rfl, rfl⟩ := Prod.mk.inj (Option.some.inj hstep)
    exact ⟨⟨h.deque, h.history, by omega, h.owner⟩, .of_eq rfl rfl rfl rfl⟩
  | takeArray b =>
    obtain ⟨rfl, rfl⟩ := Prod.mk.inj (Option.some.inj hstep)
    obtain ⟨hb, watched⟩ := h.owner
    exact ⟨⟨h.deque, h.history, hb, rfl, watched⟩, .of_eq rfl rfl rfl rfl⟩
  | takeBottom b a =>
    obtain ⟨rfl, rfl⟩ := Prod.mk.inj (Option.some.inj hstep)
    obtain ⟨hb, harray, watched⟩ := h.owner
    have deque : d.Ok 0 := h.deque
    have len := deque.bottom
    have goal : d.top + (d.content.length : ℤ) = b + 1 := by omega
    exact ⟨⟨⟨deque.top_nonneg, goal, deque.holds, deque.fits⟩, h.history, rfl, harray, watched⟩,
      .of_eq rfl rfl rfl rfl⟩
  | takeTop b a => exact held_takeTop h hstep
  | takeSlot b a t => exact held_takeSlot h hstep
  | takeCas b t x => exact held_takeCas h hstep
  | takeBack b r => exact held_takeBack h hstep

end

end

end WorkStealingDeque
