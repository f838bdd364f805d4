import EcoCompiler.WorkStealingDequeProofs

/-! # No entry of the work-stealing deque is lost or returned twice

    * `Held.stolen` — a steal, wherever the owner stands in a call of its own;
    * `thief_step` — what one access by a thief preserves;
    * `deque_history` — what the calls return, in every run. -/

namespace WorkStealingDeque

open DequeHistory Threads

section

variable {ι : Type}

/-! ## The thieves' accesses -/

section

variable {d d' : Deque ι} {o : Owner} {th : ι} {w w' : Thief} {e : Entry} {b t i : ℤ}
  {na : Buffer} {x : Slot}

/-- A steal that returns no entry changes nothing but the history. -/
theorem Held.stealReturned {r : Result} (h : Held d o) (none : r.slots = []) :
    Held (d.record (.stealReturned th r)) o := by
  refine ⟨⟨h.deque.top_nonneg, h.deque.bottom, h.deque.holds, h.deque.fits⟩,
    h.history.stealReturned none, ?_⟩
  have ok := h.owner
  cases o with
  | pushArray e b t => exact ⟨ok.number, ok.bottom, ok.nonneg, ok.top, ok.window⟩
  | growLoad e b t a na i =>
    obtain ⟨push, ha, lt, copied⟩ := ok
    exact ⟨⟨push.number, push.bottom, push.nonneg, push.top, push.window⟩, ha, lt,
      copied.le, copied.mask, copied.get⟩
  | growStore e b t a na i x =>
    obtain ⟨push, ha, lt, copied, hx⟩ := ok
    exact ⟨⟨push.number, push.bottom, push.nonneg, push.top, push.window⟩, ha, lt,
      ⟨copied.le, copied.mask, copied.get⟩, hx⟩
  | growInstall e b t na =>
    obtain ⟨push, copied⟩ := ok
    exact ⟨⟨push.number, push.bottom, push.nonneg, push.top, push.window⟩,
      copied.le, copied.mask, copied.get⟩
  | pushSlot e b t a =>
    obtain ⟨push, ha, room⟩ := ok
    exact ⟨⟨push.number, push.bottom, push.nonneg, push.top, push.window⟩, ha, room⟩
  | _ => exact ok

/-- The deque once thief `th` has stolen `x`. -/
def Deque.stolen (d : Deque ι) (th : ι) (x : Slot) : Deque ι :=
  (({ d with top := d.top + 1 } : Deque ι).record (.stole th x)).record
    (.stealReturned th (.entry x))

@[simp] theorem Deque.stolen_top (d : Deque ι) (th : ι) (x : Slot) :
    (d.stolen th x).top = d.top + 1 := rfl

@[simp] theorem Deque.stolen_content (d : Deque ι) (th : ι) (x : Slot) :
    (d.stolen th x).content = d.content.tail := rfl

theorem Pushing.stolen (h : Pushing d e b t) : Pushing (d.stolen th x) e b t where
  number := h.number
  bottom := h.bottom
  nonneg := h.nonneg
  top := h.top.trans (Int.le_add_one le_rfl)
  window := h.window

theorem Copied.stolen (h : Copied d t i na) : Copied (d.stolen th x) t i na :=
  ⟨h.le, h.mask, h.get⟩

/-- A thief that leaves nothing has taken the last entry. -/
theorem watched_stolen (head : d.content.head? = some x) : Watched (d.stolen th x) := by
  intro hempty
  obtain ⟨back, hback⟩ := List.head?_eq_some_iff.mp head
  rw [Deque.stolen_content, hback, List.tail_cons] at hempty
  rw [hempty] at hback
  exact Or.inl hback

/-- A steal takes the oldest entry, wherever the owner stands. -/
theorem Held.stolen (h : Held d o) (head : d.content.head? = some x) :
    Held (d.stolen th x) o := by
  have len := h.deque.bottom
  have top_le : d.top ≤ d.top + 1 := Int.le_add_one le_rfl
  have htail : d.content.tail.length = d.content.length - 1 := List.length_tail
  have hpos : 0 < d.content.length := by
    obtain ⟨back, hback⟩ := List.head?_eq_some_iff.mp head
    rw [hback]
    exact Nat.succ_pos _
  refine ⟨⟨?_, ?_, h.deque.holds.tail, ?_⟩, h.history.steal head, ?_⟩
  · exact h.deque.top_nonneg.trans top_le
  · have goal : d.top + 1 + (d.content.tail.length : ℤ) = d.bottom + o.owed := by omega
    exact goal
  · have fits := h.deque.fits
    have goal : d.content.tail.length ≤ (d.arrays d.array).mask + 1 := by omega
    exact goal
  have watched : Watched (d.stolen th x) := watched_stolen head
  have ok := h.owner
  -- the owner keeps what it knows: a steal moves the top up and writes no slot
  cases o with
  | idle => trivial
  | push e => exact ok
  | pushTop e b => exact ok
  | pushArray e b t => exact ok.stolen
  | growLoad e b t a na i =>
    obtain ⟨push, ha, lt, copied⟩ := ok
    exact ⟨push.stolen, ha, lt, copied.stolen⟩
  | growStore e b t a na i x =>
    obtain ⟨push, ha, lt, copied, hx⟩ := ok
    exact ⟨push.stolen, ha, lt, copied.stolen, hx⟩
  | growInstall e b t na => exact ⟨ok.1.stolen, ok.2.stolen⟩
  | pushSlot e b t a => exact ⟨ok.1.stolen, ok.2⟩
  | pushBottom e b =>
    obtain ⟨num, hb, room, hget⟩ := ok
    have goal : d.content.tail.length ≤ (d.arrays d.array).mask := by omega
    exact ⟨num, hb, goal, hget⟩
  | take => exact watched
  | takeArray b => exact ⟨ok.1, watched⟩
  | takeBottom b a => exact ⟨ok.1, ok.2.1, watched⟩
  | takeTop b a => exact ⟨ok.1, ok.2.1, watched⟩
  | takeSlot b a t =>
    obtain ⟨hb, ha, top, le, -⟩ := ok
    exact ⟨hb, ha, top.trans top_le, le, fun _ => watched⟩
  | takeCas b t y =>
    obtain ⟨hb, ht, top, -, -⟩ := ok
    refine ⟨hb, ht, top.trans top_le, fun heq => ?_, watched⟩
    -- the top moved, so the owner's compare-and-swap fails
    rw [Deque.stolen_top] at heq
    omega
  | takeBack b r =>
    -- nothing is left to steal here
    obtain ⟨-, empty, -⟩ := ok
    rw [empty] at head
    cases head

theorem Owner.owed_nonneg (o : Owner) : 0 ≤ o.owed := by
  cases o with
  | takeSlot b a t =>
    rw [Owner.owed]
    split <;> decide
  | _ => simp [Owner.owed]

/-- One access by a thief. -/
theorem thief_step (h : Held d o) (ok : w.Ok d) (hstep : w.step th d = some (d', w')) :
    Held d' o ∧ w'.Ok d' ∧ Kept d d' := by
  -- what a thief has read holds as long as the top stands where it read it
  cases w with
  | idle => cases hstep
  | steal =>
    obtain ⟨rfl, rfl⟩ := Prod.mk.inj (Option.some.inj hstep)
    exact ⟨h, le_rfl, .of_eq rfl rfl rfl rfl⟩
  | stealBottom t =>
    simp only [Thief.step] at hstep
    split at hstep
    · next lt =>
      obtain ⟨rfl, rfl⟩ := Prod.mk.inj (Option.some.inj hstep)
      refine ⟨h, ⟨ok, fun htop => ?_⟩, .of_eq rfl rfl rfl rfl⟩
      have len := h.deque.bottom
      have owed := o.owed_nonneg
      exact ⟨_, List.head?_eq_some_head (List.ne_nil_of_length_pos (by omega))⟩
    · obtain ⟨rfl, rfl⟩ := Prod.mk.inj (Option.some.inj hstep)
      exact ⟨h.stealReturned rfl, trivial, .of_eq rfl rfl rfl rfl⟩
  | stealArray t =>
    obtain ⟨rfl, rfl⟩ := Prod.mk.inj (Option.some.inj hstep)
    refine ⟨h, ⟨ok.1, le_rfl, fun htop => ?_⟩, .of_eq rfl rfl rfl rfl⟩
    obtain ⟨x, hx⟩ := ok.2 htop
    refine ⟨x, hx, ?_⟩
    rw [← htop]
    exact h.deque.holds.head hx
  | stealSlot t a =>
    obtain ⟨rfl, rfl⟩ := Prod.mk.inj (Option.some.inj hstep)
    refine ⟨h, ⟨ok.1, fun htop => ?_⟩, .of_eq rfl rfl rfl rfl⟩
    obtain ⟨x, hx, hget⟩ := ok.2.2 htop
    rw [hget]
    exact hx
  | stealCas t x =>
    simp only [Thief.step] at hstep
    split at hstep
    · next htop =>
      obtain ⟨rfl, rfl⟩ := Prod.mk.inj (Option.some.inj hstep)
      subst htop
      exact ⟨h.stolen (ok.2 rfl), trivial, .of_lt (Int.lt_succ _) rfl⟩
    · obtain ⟨rfl, rfl⟩ := Prod.mk.inj (Option.some.inj hstep)
      exact ⟨h.stealReturned rfl, trivial, .of_eq rfl rfl rfl rfl⟩

end

/-! ## Runs -/

/-- What holds in every state of a run. -/
structure Inv (s : State ι) : Prop where
  held : Held s.shared.deque s.shared.owner
  thieves : ∀ i, (s.own i).Ok s.shared.deque

theorem inv_start (log_initial : ℕ) : Inv (start log_initial : State ι) where
  held := ⟨⟨le_rfl, rfl, (fun _ _ h => by cases h), Nat.zero_le _⟩, HistoryOk.nil, trivial⟩
  thieves _ := trivial

/-- A call of `take` begins. -/
theorem Held.takeCalled {d : Deque ι} (h : Held d .idle) : Held (d.record .takeCalled) .take where
  deque := ⟨h.deque.top_nonneg, h.deque.bottom, h.deque.holds, h.deque.fits⟩
  history := h.history.takeCalled
  owner hempty := hempty

variable [DecidableEq ι]

theorem inv_next {act : Action ι} {s s' : State ι} (hstep : next act s = some s') (inv : Inv s) :
    Inv s' := by
  obtain ⟨held, thieves⟩ := inv
  -- a call, an access of the owner, or one of a thief
  cases act with
  | push value =>
    simp only [next] at hstep
    split at hstep
    · next howner =>
      obtain rfl := Option.some.inj hstep
      rw [howner] at held
      exact ⟨⟨held.deque, held.history, rfl⟩, thieves⟩
    · cases hstep
  | take =>
    simp only [next] at hstep
    split at hstep
    · next howner =>
      obtain rfl := Option.some.inj hstep
      rw [howner] at held
      exact ⟨held.takeCalled, fun i => (thieves i).kept (.of_eq rfl rfl rfl rfl)⟩
    · cases hstep
  | owner =>
    obtain ⟨⟨d', o'⟩, ho, rfl⟩ := Option.map_eq_some_iff.mp hstep
    obtain ⟨held, kept⟩ := owner_step held ho
    exact ⟨held, fun i => (thieves i).kept kept⟩
  | steal i =>
    simp only [next] at hstep
    split at hstep
    · obtain rfl := Option.some.inj hstep
      exact ⟨held, Memory.forall_set (p := fun _ (w : Thief) => w.Ok _) trivial fun j _ =>
        thieves j⟩
    · cases hstep
  | thief i =>
    obtain ⟨⟨d', w'⟩, hw, rfl⟩ := Option.map_eq_some_iff.mp hstep
    obtain ⟨held, ok, kept⟩ := thief_step held (thieves i) hw
    exact ⟨held, Memory.forall_set (p := fun _ (w : Thief) => w.Ok _) ok fun j _ =>
      (thieves j).kept kept⟩

theorem inv_of_reaches {log_initial : ℕ} {s : State ι} (run : Reaches next (start log_initial) s) :
    Inv s :=
  run.invariant (inv_start log_initial) fun _ _ _ => inv_next

/-! ## What the calls return -/

omit [DecidableEq ι] in
theorem HistoryOk.nodup_pushed {log : List (Event ι)} {hand : List Slot}
    (h : HistoryOk log hand) : (pushed (ops log)).Nodup := by
  refine List.Nodup.of_map (Option.map Entry.number) ?_
  rw [h.numbered]
  exact List.nodup_range.map fun _ _ => Option.some.inj

omit [DecidableEq ι] in
theorem HistoryOk.returned_subset {log : List (Event ι)} {hand : List Slot}
    (h : HistoryOk log hand) : WorkStealingDeque.returned log ⊆ pushed (ops log) := fun _ hx =>
  h.legal.removed_subset (h.returned.subset (List.mem_append_left _ hx))

omit [DecidableEq ι] in
/-- Between the owner's calls, the entries between the two indices are the queue. -/
theorem Deque.Ok.entries_eq {d : Deque ι} (h : d.Ok 0) : d.entries = d.content := by
  have len := h.bottom
  have hlen : (d.bottom - d.top).toNat = d.content.length := by omega
  rw [Deque.entries, hlen]
  refine List.ext_getElem (by simp) fun k _ hk => ?_
  rw [List.getElem_map, List.getElem_range]
  exact h.holds k _ (List.getElem?_eq_getElem hk)

/-- In every run of the owner and its thieves: the pushes are numbered, no push's entry is
    returned twice, only pushed entries are returned, a take that returns `kEmpty` found the
    deque empty when it began or lost its last entry to a thief (or was given a pushed entry
    of that value), and when every call has returned the deque holds the pushed entries that
    were not returned, in order. -/
theorem deque_history {log_initial : ℕ} {s : State ι} (run : Reaches next (start log_initial) s) :
    let log := s.shared.deque.log
    (pushed (ops log)).map (Option.map Entry.number)
      = (List.range (pushed (ops log)).length).map some ∧
    (returned log).Nodup ∧
    returned log ⊆ pushed (ops log) ∧
    (∀ r older, .takeReturned r :: older <:+ log → r.value = some kEmpty →
      Emptied older ∨
        ∃ e, r = .entry (some e) ∧ some e ∈ pushed (ops log) ∧ e.value = kEmpty) ∧
    (Quiet s → s.shared.deque.entries
      = (pushed (ops log)).filter fun x => x ∉ returned log) := by
  obtain ⟨⟨deque, history, -⟩, -⟩ := inv_of_reaches run
  have nodup := history.nodup_pushed
  refine ⟨history.numbered, ?_, history.returned_subset, ?_, ?_⟩
  · have hremoved := history.legal.nodup_removed nodup
    exact (List.nodup_append.mp (history.returned.nodup_iff.mpr hremoved)).1
  · intro r older hsuf hvalue
    cases r with
    | kEmpty => exact Or.inl (history.excused older hsuf)
    | kAbort => exact absurd hvalue (by decide)
    | entry x =>
      obtain ⟨e, rfl, he⟩ := Option.map_eq_some_iff.mp hvalue
      refine Or.inr ⟨e, rfl, history.returned_subset ?_, he⟩
      exact List.mem_filterMap.mpr ⟨_, hsuf.subset (List.mem_cons_self ..), rfl⟩
  · rintro ⟨howner, -⟩
    rw [howner] at deque history
    have hperm : (returned s.shared.deque.log).Perm (removed (ops s.shared.deque.log)) := by
      have hreturned := history.returned
      have hhand : Owner.hand s.shared.deque .idle = [] := rfl
      rwa [hhand, List.append_nil] at hreturned
    rw [Deque.Ok.entries_eq deque, Deque.content, history.legal.content_eq_filter nodup]
    refine List.filter_congr fun x _ => ?_
    exact decide_eq_decide.mpr (not_congr hperm.symm.mem_iff)

end

/-- A thief steals from the outgrown buffer, and another beats the owner to the last entry. -/
theorem deque_history_race :
    ∃ s : State (Fin 2), Reaches next (start 0) s ∧
      s.shared.deque.log.head? = some (.takeReturned .kEmpty) ∧
      returned s.shared.deque.log = [some ⟨1, 6⟩, some ⟨0, 5⟩] ∧
      (returned s.shared.deque.log).Nodup := by
  have hrun : (runs next
      [.push 5, .owner, .owner, .owner, .owner, .owner, .steal 0, .thief 0, .thief 0, .thief 0,
        .push 6, .owner, .owner, .owner, .owner, .owner, .owner, .owner, .owner, .thief 0,
        .thief 0, .steal 1, .thief 1, .thief 1, .thief 1, .thief 1, .take, .owner, .owner,
        .owner, .owner, .owner, .thief 1, .owner, .owner]
      (start 0 : State (Fin 2))).map
        (fun s => (s.shared.deque.log.head?, returned s.shared.deque.log))
      = some (some (.takeReturned .kEmpty), [some ⟨1, 6⟩, some ⟨0, 5⟩]) := by decide
  obtain ⟨s, hs, hlog⟩ := Option.map_eq_some_iff.mp hrun
  have run := reaches_of_runs hs
  obtain ⟨hhead, hreturned⟩ := Prod.mk.inj hlog
  have once := (deque_history run).2.1
  exact ⟨s, run, hhead, hreturned, once⟩

end WorkStealingDeque
