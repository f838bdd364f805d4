import EcoCompiler.WsCoreRun
import Mathlib.Data.List.Basic

/-! # What a legal WebSocket conversation is

    * `WsCore.Talk.hear` — a listener that follows the frames handed to `portWrite` and
      accepts only a legal conversation;
    * `WsCore.Legal` — the frames handed over so far are accepted;
    * `WsCore.TalkInv` — what holds of the queue, the streams and the close state in every
      state of a run, from which the next frame is accepted. -/

namespace WsCore

open WsFrame (kOpContinuation kOpText kOpBinary kOpClose kOpPing kOpPong)

/-! ## The listener -/

/-- What a listener remembers: the place of the message begun and not finished, the first
    place that may still begin, and whether a Close was heard. -/
structure Talk where
  current : Option Nat := none
  next : Nat := 0
  closed : Bool := false

/-- The next frame heard; `none` when it breaks the conversation.  Nothing follows a
    Close.  A control frame is whole.  A data frame either continues the message begun, or
    begins a message with the opcode it was queued with while none is begun, and messages
    begin in the order they were queued.  FIN ends the message. -/
def Talk.hear (queued : List Nat) (t : Talk) (f : Sent) : Option Talk :=
  if t.closed then none
  else
    match f.place with
    | none =>
        if f.frame.fin ∧ 8 ≤ f.frame.opcode then
          some { t with closed := decide (f.frame.opcode = kOpClose) }
        else none
    | some place =>
        let current := if f.frame.fin then none else some place
        if f.frame.opcode = kOpContinuation then
          if t.current = some place then some { t with current := current } else none
        else if t.current = none ∧ t.next ≤ place ∧ queued[place]? = some f.frame.opcode then
          some { t with current := current, next := place + 1 }
        else none

/-- The listener after the frames of `sent`. -/
def Talk.hearAll (queued : List Nat) (sent : List Sent) : Option Talk :=
  sent.foldlM (Talk.hear queued) {}

/-- The frames handed to `portWrite` so far are a legal conversation. -/
def Legal (s : State) : Prop := (Talk.hearAll s.out.queued s.out.sent).isSome = true

instance (s : State) : Decidable (Legal s) := inferInstanceAs (Decidable (_ = true))

/-- Whether a Close has been handed over. -/
def closeHandedOver (s : State) : Bool :=
  s.out.sent.any fun f => f.place.isNone && f.frame.opcode == kOpClose

/-! ## Listening -/

theorem hearAll_append (queued : List Nat) (sent : List Sent) (f : Sent) :
    Talk.hearAll queued (sent ++ [f])
      = (Talk.hearAll queued sent).bind fun t => Talk.hear queued t f := by
  rw [Talk.hearAll, List.foldlM_append]
  show (Talk.hearAll queued sent).bind (fun t => List.foldlM (Talk.hear queued) t [f]) = _
  congr 1
  funext t
  rw [List.foldlM_cons]
  exact Option.bind_fun_some _

/-- A longer queue accepts what a shorter one does. -/
theorem hear_queued {queued : List Nat} {t t' : Talk} {f : Sent}
    (h : Talk.hear queued t f = some t') (more : List Nat) :
    Talk.hear (queued ++ more) t f = some t' := by
  rw [Talk.hear] at h ⊢
  by_cases hc : t.closed = true
  · rw [if_pos hc] at h
    cases h
  rw [if_neg hc] at h ⊢
  cases hp : f.place with
  | none =>
      rw [hp] at h
      exact h
  | some place =>
      rw [hp] at h
      show (if f.frame.opcode = kOpContinuation then _ else _) = some t'
      by_cases hcont : f.frame.opcode = kOpContinuation
      · rw [if_pos hcont]
        simpa only [if_pos hcont] using h
      · rw [if_neg hcont]
        simp only [if_neg hcont] at h
        split at h
        · rename_i hfirst
          have hlt : place < queued.length := (List.getElem?_eq_some_iff.mp hfirst.2.2).1
          rw [if_pos ⟨hfirst.1, hfirst.2.1, by
            rw [List.getElem?_append_left hlt]
            exact hfirst.2.2⟩]
          exact h
        · cases h

theorem hearAll_queued {queued : List Nat} {sent : List Sent} {t : Talk}
    (h : Talk.hearAll queued sent = some t) (more : List Nat) :
    Talk.hearAll (queued ++ more) sent = some t := by
  suffices ∀ (sent : List Sent) (t₀ : Talk), sent.foldlM (Talk.hear queued) t₀ = some t →
      sent.foldlM (Talk.hear (queued ++ more)) t₀ = some t from this sent {} h
  intro sent
  induction sent with
  | nil =>
      intro t₀ h
      exact h
  | cons f sent ih =>
      intro t₀ h
      rw [List.foldlM_cons] at h ⊢
      obtain ⟨t₁, hf, hrest⟩ := Option.bind_eq_some_iff.mp h
      exact Option.bind_eq_some_iff.mpr ⟨t₁, hear_queued hf more, ih t₁ hrest⟩

/-! ## The queue -/

/-- The place of an entry of the queue. -/
def OutItem.place : OutItem → Option Nat
  | .message place _ => some place
  | .close _ => none
  | .stream place _ => some place

/-- The stream of an entry of the queue. -/
def OutItem.seq : OutItem → Option Nat
  | .message _ _ => none
  | .close _ => none
  | .stream _ seq => some seq

/-- The entry is a Close. -/
def OutItem.isClose : OutItem → Bool
  | .close _ => true
  | _ => false

/-- Nothing of the entry has been sent, and it has the opcode it was queued with. -/
def OutItem.Fresh (s : State) : OutItem → Prop
  | .message place item => item.offset = 0 ∧ s.out.queued[place]? = some item.opcode
  | .stream place seq =>
      ∃ st, s.findStream seq = some st ∧ st.dead = false ∧ st.started = false
        ∧ s.out.queued[place]? = some st.opcode
  | .close _ => True

/-- Part of the entry has been sent. -/
def OutItem.Begun (s : State) : OutItem → Prop
  | .message _ item => 0 < item.offset
  | .stream _ seq => ∃ st, s.findStream seq = some st ∧ st.dead = false ∧ st.started = true
  | .close _ => False

/-- No data is queued and none can be queued any more. -/
def Sealed (s : State) : Prop :=
  s.wr.writeClosed = true ∧ ∀ item ∈ s.wr.outQ, item.isClose = true

/-- The data of the queue is what may follow what the listener heard: the message begun,
    if it is still there, and then entries of which nothing has been sent, in order. -/
inductive Follows (s : State) (t : Talk) : Prop where
  | idle (hcurrent : t.current = none) (hfresh : ∀ item ∈ s.wr.outQ, item.Fresh s)
      (hnext : ∀ item ∈ s.wr.outQ, ∀ place, item.place = some place → t.next ≤ place)
  | midway (place : Nat) (item : OutItem) (rest : List OutItem)
      (hcurrent : t.current = some place) (hqueue : s.wr.outQ = item :: rest)
      (hplace : item.place = some place) (hbegun : item.Begun s)
      (hfresh : ∀ item ∈ rest, item.Fresh s)
  | dropped (hsealed : Sealed s)

/-- What holds of the queue while the transport is there. -/
structure QueueOk (s : State) (t : Talk) : Prop where
  follows : Follows s t
  next : ∀ place, t.current = some place → t.next = place + 1
  nextLe : t.next ≤ s.out.queued.length
  placed : ∀ item ∈ s.wr.outQ, ∀ place, item.place = some place → place < s.out.queued.length
  sorted : (s.wr.outQ.filterMap OutItem.place).Pairwise (· < ·)
  seqs : (s.wr.outQ.filterMap OutItem.seq).Nodup
  afterClose : t.closed = true → s.wr.outQ = []
  port : t.closed = true → s.tr.port = true

/-- What holds of what a core has sent and may send, in every state of a run. -/
structure SendInv (s : State) (t : Talk) : Prop where
  heard : Talk.hearAll s.out.queued s.out.sent = some t
  closedSent : t.closed = true → s.cl.closeSent = true
  sentQueued : s.cl.closeSent = true → s.cl.closeQueued = true
  queuedClosed : s.cl.closeQueued = true → s.wr.writeClosed = true
  closeQueued : ∀ item ∈ s.wr.outQ, item.isClose = true → s.cl.closeQueued = true
  closeLast : s.wr.outQ.Pairwise fun a _ => a.isClose = false
  queue : s.tr.gone = false → QueueOk s t
  written : Completion.closeFrameWritten ∈ s.out.writes → t.closed = true
  closeWritten : s.cl.closeWritten = true → t.closed = true
  posted : s.cl.closedPosted = true → s.tr.gone = true ∨ Sealed s
  opcodes : ∀ opcode ∈ s.out.queued, opcode = kOpText ∨ opcode = kOpBinary
  places : ∀ seq ∈ s.wr.outQ.filterMap OutItem.seq, seq ∈ s.out.opened
  streams : ∀ e ∈ s.wr.outStreams, e.1 ∈ s.out.opened

/-! ## The stack -/

/-- The pieces that may stand above a pending echo while the transport is there. -/
def Stmt.isIdle : Stmt → Bool
  | .inPort => true
  | .pumpLoop => true
  | _ => false

/-- A Close queued. -/
def Stmt.isPushClose : Stmt → Bool
  | .pushClose _ _ => true
  | _ => false

/-- The pieces that neither queue, send nor echo a Close on their own, and do not report
    one written. -/
def Stmt.isCalm : Stmt → Bool
  | .pushClose _ _ => false
  | .sendEcho _ => false
  | .closeEcho _ => false
  | .complete .closeFrameWritten 0 => false
  | _ => true

/-- The pieces that empty the queue for good. -/
def Stmt.isSealer : Stmt → Bool
  | .failWithClose _ _ => true
  | .endedRest => true
  | _ => false

/-- Closed posted. -/
def Stmt.isPostClosed : Stmt → Bool
  | .postClosed => true
  | _ => false

/-- Before every `postClosed` the queue is emptied for good. -/
def sealedPosts : List Stmt → Bool
  | [] => true
  | p :: k => p.isSealer || (!p.isPostClosed && sealedPosts k)

/-- Pieces that may follow one that sends nothing. -/
def isTame (ks : List Stmt) : Bool := ks.all Stmt.isCalm && sealedPosts ks

/-- The Close frames to come: those in the queue and those about to be queued. -/
def closesToCome (s : State) (k : List Stmt) : Nat :=
  s.wr.outQ.countP OutItem.isClose + k.countP Stmt.isPushClose

/-- While an echo is pending, nothing else can be sent. -/
def EchoOk (s : State) (t : Talk) (k : List Stmt) : Prop :=
  ∀ pre code post, k = pre ++ .sendEcho code :: post →
    s.cl.closeQueued = true ∧ (s.tr.gone = false →
      t.closed = false ∧ s.rx.inputDone = true ∧ s.wr.outQ = []
        ∧ ∀ p ∈ pre, p.isIdle = true)

/-- What holds of the stack in every state of a run. -/
structure StackOk (s : State) (t : Talk) (k : List Stmt) : Prop where
  closes : closesToCome s k ≤ 1
  pushing : 0 < k.countP Stmt.isPushClose → s.cl.closeQueued = true
  echo : EchoOk s t k
  posting : s.tr.gone = true ∨ Sealed s ∨ sealedPosts k = true
  failing : s.cl.failed = true → s.tr.gone = true ∨ Sealed s ∨ k.any Stmt.isSealer = true
  reporting : ∀ p ∈ k, p ≠ .complete .closeFrameWritten 0
  echoing : ∀ code, .closeEcho code ∈ k → s.rx.inputDone = true

/-- What holds in every state of a run. -/
def TalkInv (s : State) (k : List Stmt) : Prop := ∃ t, SendInv s t ∧ StackOk s t k

end WsCore
