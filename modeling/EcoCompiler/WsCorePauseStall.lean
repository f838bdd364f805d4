import EcoCompiler.WsCorePauseRuns
import EcoCompiler.WsCoreTalkRuns

/-! # Why reading is paused: the property, and how it fails

    * `WsCore.wantsRead_or_held` — in every run in which no unannounced body is left half
      inflated and no failure of the connection is dropped, a pause has a reason that the
      program can remove;
    * `WsCore.runs_pieces` — 3 MiB of zeros fill the body piece by piece, and input is left;
    * `WsCore.checkPause_stalls` — `readShutdown` cancels this body while its message is still
      being inflated, and reading stays paused for ever. -/

namespace WsCore

open State

/-- What reading promises: while it is paused the program can take or cancel something, and
    once the readable and the current body are cancelled it is not paused. -/
def PausedForProgram (s : State) : Prop :=
  s.tr.attached = true → s.tr.gone = false → s.rx.inputDone = false →
    (s.wantsRead = false → HeldByProgram s)
      ∧ (s.rd.readShut = true → (∀ b, s.rx.body = some b → b.cancelled = true) → s.wantsRead = true)

/-- Once everything is cancelled the program holds nothing. -/
theorem not_held_of_cancelled {s : State} (hshut : s.rd.readShut = true)
    (hcancelled : ∀ b, s.rx.body = some b → b.cancelled = true) : ¬ HeldByProgram s := by
  rintro (⟨hopen, -⟩ | ⟨b, hb, hopen, -⟩)
  · exact absurd hshut (Bool.eq_false_iff.mp hopen)
  · exact absurd (hcancelled b hb) (Bool.eq_false_iff.mp hopen)

/-- In every run in which no unannounced body is left half inflated and no failure of the
    connection is dropped while input is open, a pause between entry points has a reason. -/
theorem wantsRead_or_held (cfg : WsConfig) (c : Config) (hrun : Runs NoStall (Config.start cfg) c)
    (hidle : c.stack = []) : PausedForProgram c.s := by
  intro hattached hgone hopen
  have hinv := hrun.pauseInv
  rw [hidle] at hinv
  have hok : PauseOk c.s.reading [] := by
    cases hinv with
    | past hpast =>
        rcases hpast with hdone | hpast
        · exact absurd hdone (Bool.eq_false_iff.mp hopen)
        · exact absurd hpast (Bool.eq_false_iff.mp hgone)
    | settled hok => exact hok
  have hpaused : c.s.wantsRead = false → c.s.rd.paused = true := by
    intro hwants
    rw [wantsRead, hattached, hgone, hopen, Bool.or_false] at hwants
    simpa using hwants
  refine ⟨fun hwants => hok.heldByProgram (hpaused hwants), fun hshut hcancelled => ?_⟩
  by_contra hwants
  rw [Bool.not_eq_true] at hwants
  exact not_held_of_cancelled hshut hcancelled (hok.heldByProgram (hpaused hwants))

theorem noStall_run {c : Config} (h : stalls c .run = false) : NoStall c .run :=
  ⟨h, fun _ he => (by cases he)⟩

/-- A streamed message received, and the readable cancelled before its body was announced. -/
theorem wantsRead_or_held_shut :
    PausedForProgram ((((Config.start { streamed := true }).call plainChoice 40 .attach).call
      plainChoice 60 (.portData [0x81, 0x01, 0x61])).call plainChoice 40 .readShutdown).s := by
  have h₁ : Runs NoStall (Config.start { streamed := true })
      ((Config.start { streamed := true }).call plainChoice 40 .attach) := by
    refine Config.runs_call rfl trivial ⟨rfl, ?_⟩ fun i hi => noStall_run ?_
    · intro e he
      obtain rfl := Move.enter.inj he
      trivial
    · revert i
      decide +kernel
  have h₂ : Runs NoStall (Config.start { streamed := true })
      (((Config.start { streamed := true }).call plainChoice 40 .attach).call
        plainChoice 60 (.portData [0x81, 0x01, 0x61])) := by
    refine h₁.trans (Config.runs_call (by decide +kernel) trivial ⟨rfl, ?_⟩
      fun i hi => noStall_run ?_)
    · intro e he
      obtain rfl := Move.enter.inj he
      rfl
    · revert i
      decide +kernel
  refine wantsRead_or_held { streamed := true } _ (h₂.trans (Config.runs_call (by decide +kernel)
    trivial ⟨by decide +kernel, ?_⟩ fun i hi => noStall_run ?_)) (by decide +kernel)
  · intro e he
    obtain rfl := Move.enter.inj he
    trivial
  · revert i
    decide +kernel

/-! ## Pieces at a full body -/

/-- A full body is above the high mark. -/
theorem high_of_body {s : State} {b : Body} (hb : s.rx.body = some b)
    (hfull : kReadHighBytes ≤ b.qBytes) : s.high = true := by
  rw [State.high, hb, Option.any_some, decide_eq_true hfull, Bool.or_true, Bool.true_or]

/-- So is a message whose inflater has input left. -/
theorem high_of_inflating {s : State} (hmore : s.rx.rxActive = true ∧ s.rx.rxCompressed = true)
    {i : Inflater} (hi : s.rx.inflater = some i) (hinput : i.input ≠ []) : s.high = true := by
  have hhas : i.hasInput = true := by
    rw [Inflater.hasInput, Bool.not_eq_true', List.isEmpty_eq_false_iff]
    exact hinput
  rw [State.high, hmore.1, hmore.2, hi, Option.any_some, hhas, Bool.true_and, Bool.true_and,
    Bool.or_true]

/-- A run goes on with the piece on top of its stack. -/
theorem Runs.pops {a : Config} {s : State} {p : Stmt} {k : List Stmt} {es : List Entry} {e : Exec}
    (ch : Choice) (hrun : Runs AnyMove a { s := s, stack := p :: k, entries := es })
    (he : s.exec ch p = e) : Runs AnyMove a { s := e.1, stack := e.2 ++ k, entries := es } := by
  refine hrun.tail ⟨.run, ch, List.cons_ne_nil p k, trivial, ?_⟩
  rw [← he]
  rfl

/-- A run goes on until the stack is empty. -/
theorem Runs.settles {a c d : Config} (ch : Choice) (n : Nat) (hrun : Runs AnyMove a c)
    (hd : c.settle ch n = d) : Runs AnyMove a d :=
  hd ▸ hrun.trans (Config.runs_settle ch fun _ _ => trivial)

/-- Paused and high, the check changes nothing. -/
theorem checkPause_stays {s : State} (ch : Choice) (hhigh : s.high = true)
    (hpaused : s.rd.paused = true) : s.exec ch .checkPause = (s, []) := by
  show s.checkPause ch = _
  rw [State.checkPause, if_pos hhigh, if_pos hpaused]

/-- High and not paused, the check pauses. -/
theorem checkPause_pauses {s : State} (ch : Choice) (hhigh : s.high = true)
    (hopen : s.rd.paused = false) (hlive : s.live = true) :
    s.exec ch .checkPause = ({ s with
        rd.paused := true
        out.deadline := Function.update s.out.deadline .heartbeat 0 },
      [.inPort, .setDeadline .pong 0]) := by
  show s.checkPause ch = _
  rw [State.checkPause, if_pos hhigh, if_neg (Bool.eq_false_iff.mp hopen)]
  exact if_pos hlive

/-- A full body stops the inflate loop. -/
theorem inflateLoop_waits {s : State} (ch : Choice) (hfull : s.bodyFull = true) :
    s.exec ch .inflateLoop = (s, [.inflateEnd]) := by
  show s.inflateLoop ch = _
  rw [State.inflateLoop, hfull, Bool.or_true, if_pos rfl]

/-- Otherwise one step of the inflater goes to the body. -/
theorem inflateLoop_output {s : State} {i i' : Inflater} {bytes : Bytes} (ch : Choice)
    (hgo : s.inflating = true) (hroom : s.bodyFull = false) (hi : s.rx.inflater = some i)
    (hstep : i.step ch.inflate = (i', .Output bytes)) :
    s.exec ch .inflateLoop
      = ({ s with rx.inflater := some i' }, [.deliverData bytes, .inflateLoop]) := by
  show s.inflateLoop ch = _
  rw [State.inflateLoop, hgo, hroom, if_neg (by decide)]
  simp only [hi, hstep]

/-- Bytes that nobody waits for are queued. -/
theorem deliverBody_inflating {s : State} {seq n : Nat} {text : Bool} {q : List Bytes}
    (ch : Choice) (hb : s.rx.body = some { seq := seq, text := text, q := q, qBytes := n })
    (hmore : inflatingMore s.rx = true) :
    s.exec ch .deliverBody
      = ({ s with rx.body := some { seq := seq, text := text, q := q, qBytes := n } }.post [],
        [.pumpInflate, .checkPause, .maybeFinishBody]) := by
  show s.deliverBody = _
  rw [State.deliverBody, hb]
  exact congrArg (Prod.mk _) (congrArg (· ++ [Stmt.checkPause, .maybeFinishBody]) (if_pos hmore))

/-- A payload that comes in one chunk. -/
theorem feedPayload_whole {s : State} (ch : Choice) (caller : FeedCaller) {data : Bytes}
    (hok : s.decoderFailed = false) (hne : data ≠ [])
    (hlen : data.length = s.rx.decoder.remaining)
    (htake : (WsFrame.takeChunk s.decoderConfig s.rx.decoder data).1.failCode = 0) :
    s.exec ch (.feedPayload caller data)
      = ({ s with rx.decoder := (WsFrame.takeChunk s.decoderConfig s.rx.decoder data).1 },
          (WsFrame.takeChunk s.decoderConfig s.rx.decoder data).2.map Stmt.sink
            ++ [.feedAfterChunk caller []]) := by
  show s.feedPayload caller data = _
  rw [State.feedPayload, hok, if_neg Bool.false_ne_true,
    if_pos (hlen ▸ List.length_pos_of_ne_nil hne), if_neg hne]
  dsimp only
  rw [← hlen, Nat.min_self, List.take_length, List.drop_length]
  exact if_neg (not_not.mpr htake)

/-- With nothing remaining the frame is complete. -/
theorem feedAfterChunk_ends {s : State} (ch : Choice) (caller : FeedCaller) (data : Bytes)
    (hok : s.decoderFailed = false) (hrem : s.rx.decoder.remaining = 0) :
    s.exec ch (.feedAfterChunk caller data) = s.completeFrame caller data := by
  show s.feedAfterChunk caller data = _
  rw [State.feedAfterChunk, hok, hrem]
  exact if_neg Bool.false_ne_true

/-! ## Three MiB of zeros

    The answers of `inflate` are those that zlib gives for these bytes, 64 KiB of output at a
    time. -/

/-- 3 MiB of zeros as a raw deflate stream: the codes and the first bytes, the matches that
    repeat them, and the end of the block. -/
def zeros : Bytes :=
  [0xEC, 0xC1, 0x01, 0x0D, 0x00, 0x00, 0x00, 0xC2, 0xA0, 0xF7, 0x4F, 0x6D, 0x0E, 0x37, 0xA0]
    ++ List.replicate 3048 0x00 ++ [0xBE, 0x0D]

theorem zeros_length : zeros.length = 3065 := by
  rw [zeros, List.length_append, List.length_append, List.length_replicate]
  rfl

/-- The output of one step. -/
def piece : Bytes := List.replicate kInflateStep 0

theorem piece_length : piece.length = kInflateStep := List.length_replicate ..

theorem piece_ne_nil : piece ≠ [] := by
  intro hnil
  have hlen := piece_length
  rw [hnil] at hlen
  exact absurd hlen (by decide)

/-- The input that step `k` takes. -/
def takenAt (k : Nat) : Nat := if k = 0 then 79 else if k % 2 = 1 then 64 else 63

/-- The input that the first `k` steps take. -/
def taken : Nat → Nat
  | 0 => 0
  | k + 1 => taken k + takenAt k

/-- The first `k` steps take 64 bytes each at most, and 15 more. -/
theorem taken_le (k : Nat) : taken k ≤ 15 + 64 * k := by
  induction k with
  | zero => exact Nat.zero_le _
  | succ k ih =>
      rw [taken, takenAt]
      split
      · subst k
        exact Nat.le_refl _
      · split <;> omega

/-- Input is left after sixteen steps. -/
theorem drop_taken_ne_nil {payload : Bytes} (hlen : payload.length = 3065) {k : Nat}
    (hk : k ≤ 16) : payload.drop (taken k) ≠ [] := by
  have hle := taken_le k
  refine List.ne_nil_of_length_pos ?_
  rw [List.length_drop, hlen]
  omega

/-- The answer of `inflate` in step `k`. -/
def inflated (k : Nat) : ZResult where
  consumed := takenAt k
  produced := piece
  streamEnd := false
  ok := true
  bounded := Nat.le_of_eq piece_length

/-- The choices of a step in which zlib inflates `k` bytes. -/
def inflateChoice (k : Nat) : Choice := { plainChoice with inflate := [inflated k] }

/-- One inflate step gives a whole piece and leaves the rest of the input. -/
theorem step_output {input : Bytes} (hinput : input ≠ []) (k : Nat) :
    Inflater.step (inflateChoice k).inflate { input := input }
      = ({ input := input.drop (takenAt k) }, .Output piece) := by
  show Inflater.step [inflated k] { input := input } = _
  rw [Inflater.step, if_neg hinput]
  exact (if_neg Bool.false_ne_true).trans ((if_pos rfl).trans (if_pos piece_ne_nil))

/-! ## The run -/

/-- The header of the message is in. -/
def announced : Config :=
  ((Config.start { streamed := true, deflate := true }).call plainChoice 8 .attach).call plainChoice
    20 (.portData [0xC2, 0x7E, 0x0B, 0xF9])

/-- The core while it inflates `payload`: whether it is paused, its deadlines, the pieces in the
    body and their length, and the input left. -/
def filling (payload : Bytes) (paused : Bool) (deadline : Timer → Int) (q : List Bytes) (n : Nat)
    (input : Bytes) : Config :=
  { s := { announced.s with
      rx.rxBytes := announced.s.rx.rxBytes + payload.length
      rx.lastRxMs := 1
      rx.processing := true
      rx.stopped := false
      rx.decoder := (WsFrame.takeChunk announced.s.decoderConfig announced.s.rx.decoder payload).1
      rx.inflater := some { input := input }
      rx.pumpingInflate := true
      rx.body := some { seq := 1, text := false, q := q, qBytes := n }
      rd.paused := paused
      out.deadline := deadline }
    stack := [.inflateLoop, .feedAfterChunk .portData []]
    entries := announced.entries ++ [.portData payload] }

/-- The deadlines of the paused core. -/
def pausedDeadline : Timer → Int :=
  Function.update (Function.update announced.s.out.deadline .heartbeat 0) .pong 0

section
variable {payload : Bytes}

/-- The message comes in and fills the body. -/
theorem runs_filling (hlen : payload.length = 3065) :
    Runs AnyMove (Config.start { streamed := true, deflate := true })
      (filling payload false announced.s.out.deadline [] 0 payload) := by
  have hannounced : Runs AnyMove (Config.start { streamed := true, deflate := true }) announced :=
    (Config.runs_call (e := .attach) (n := 8) rfl trivial trivial fun _ _ => trivial).trans
      (Config.runs_call rfl trivial trivial fun _ _ => trivial)
  have henter : Runs AnyMove _ _ :=
    hannounced.tail ⟨.enter (.portData payload), plainChoice, .inl ⟨rfl, trivial⟩, trivial, rfl⟩
  have hin := henter.settles plainChoice 1 rfl
  have hne : payload ≠ [] := List.ne_nil_of_length_pos (by omega)
  exact (hin.pops plainChoice (feedPayload_whole _ _ rfl hne hlen rfl)).settles plainChoice 2 rfl

/-- One step of the inflater, up to `checkPause`. -/
theorem runs_inflated {a : Config} {paused : Bool} {deadline : Timer → Int} {q : List Bytes}
    {n k : Nat} {input : Bytes} (hroom : n < kReadHighBytes) (hinput : input ≠ [])
    (hrest : input.drop (takenAt k) ≠ [])
    (hrun : Runs AnyMove a (filling payload paused deadline q n input)) :
    Runs AnyMove a { filling payload paused deadline (q ++ [piece]) (n + piece.length)
        (input.drop (takenAt k)) with
      stack := [.checkPause, .maybeFinishBody, .inflateLoop, .feedAfterChunk .portData []] } := by
  have hbody : (filling payload paused deadline q n input).s.bodyFull = false := by
    show (true && (!false && ReadEnd.None == .None && decide (kReadHighBytes ≤ n))) = false
    rw [decide_eq_false (Nat.not_le.mpr hroom)]
    rfl
  have hmore : inflatingMore (filling payload paused deadline (q ++ [piece]) (n + piece.length)
      (input.drop (takenAt k))).s.rx = true := by
    show (true && true && (!(input.drop (takenAt k)).isEmpty || false)) = true
    rw [List.isEmpty_eq_false_iff.mpr hrest]
    rfl
  have hout := hrun.pops (inflateChoice k)
    (inflateLoop_output _ rfl hbody rfl (step_output hinput k))
  have hdata := hout.settles plainChoice 1 rfl
  have hdeliver := hdata.pops plainChoice (deliverBody_inflating _ rfl hmore)
  exact hdeliver.settles plainChoice 1 rfl

/-- The first piece pauses reading. -/
theorem runs_first (hlen : payload.length = 3065) :
    Runs AnyMove (Config.start { streamed := true, deflate := true })
      (filling payload true pausedDeadline [piece] (0 + piece.length)
        (payload.drop (taken 1))) := by
  have hinput : payload ≠ [] := drop_taken_ne_nil (k := 0) hlen (Nat.zero_le _)
  have hrest : payload.drop (takenAt 0) ≠ [] := drop_taken_ne_nil (k := 1) hlen (by decide)
  have hrun := runs_inflated (k := 0) (by decide) hinput hrest (runs_filling hlen)
  have hpause := hrun.pops plainChoice
    (checkPause_pauses _ (high_of_inflating ⟨rfl, rfl⟩ rfl hrest) rfl rfl)
  exact hpause.settles plainChoice 4 rfl

/-- Sixteen pieces fill the body. -/
theorem runs_pieces (hlen : payload.length = 3065) {k : Nat} (hk : k < 16) :
    Runs AnyMove (Config.start { streamed := true, deflate := true })
      (filling payload true pausedDeadline (List.replicate (k + 1) piece) ((k + 1) * kInflateStep)
        (payload.drop (taken (k + 1)))) := by
  induction k with
  | zero =>
      have hrun := runs_first hlen
      rw [piece_length] at hrun
      exact hrun
  | succ k ih =>
      have hrest : (payload.drop (taken (k + 1))).drop (takenAt (k + 1)) ≠ [] := by
        rw [List.drop_drop]
        exact drop_taken_ne_nil (k := k + 2) hlen (by omega)
      have hroom : (k + 1) * kInflateStep < kReadHighBytes := by
        rw [kInflateStep, kReadHighBytes]
        omega
      have hrun := runs_inflated hroom (drop_taken_ne_nil hlen (by omega)) hrest (ih (by omega))
      have hstay := (hrun.pops plainChoice
        (checkPause_stays _ (high_of_inflating ⟨rfl, rfl⟩ rfl hrest) rfl)).settles plainChoice 1 rfl
      have hn : (k + 1 + 1) * kInflateStep = (k + 1) * kInflateStep + piece.length := by
        rw [piece_length, Nat.succ_mul]
      rw [List.drop_drop] at hstay
      rw [List.replicate_succ' (n := k + 1), hn]
      exact hstay

/-! ### The full body -/

variable {q : List Bytes} {n : Nat} {input : Bytes}

/-- The core paused by a full body, in the loop of `pumpInflate`. -/
def full (payload : Bytes) (q : List Bytes) (n : Nat) (input : Bytes) : Config :=
  filling payload true pausedDeadline q n input

theorem full_bodyFull (hfull : kReadHighBytes ≤ n) {s : State} (hmode : s.cfg.streamed = true)
    (hb : s.rx.body = some { seq := 1, text := false, q := q, qBytes := n }) :
    s.bodyFull = true := by
  rw [State.bodyFull, hmode, hb]
  show (true && (!false && ReadEnd.None == .None && decide (kReadHighBytes ≤ n))) = true
  rw [decide_eq_true hfull]
  rfl

/-- The rest of the message waiting to be inflated. -/
def waiting (payload : Bytes) (q : List Bytes) (n : Nat) (input : Bytes) : Config :=
  { s := { (full payload q n input).s with rx.pumpingInflate := false }
    stack := [.feedAfterChunk .portData []]
    entries := announced.entries ++ [.portData payload] }

/-- The message ended. -/
def ended (payload : Bytes) (q : List Bytes) (n : Nat) (input : Bytes) : Config :=
  { s := { (full payload q n input).s with
      rx.decoder := (WsFrame.completeFrame announced.s.decoderConfig
        (full payload q n input).s.rx.decoder).1
      rx.held := true
      rx.stopped := true
      rx.inflater := some (Inflater.finish { input := input })
      rx.rxEndPending := true }
    stack := [.inflateLoop, .checkPause, .feedTurn .portData []]
    entries := announced.entries ++ [.portData payload] }

/-- The end of the message noted. -/
def noted (payload : Bytes) (q : List Bytes) (n : Nat) (input : Bytes) : Config :=
  { s := { (ended payload q n input).s with rx.pumpingInflate := false }
    stack := [.feedTurn .portData []]
    entries := announced.entries ++ [.portData payload] }

/-- The core once its port call returned. -/
def idle (payload : Bytes) (q : List Bytes) (n : Nat) (input : Bytes) : Config :=
  { s := { (ended payload q n input).s with rx.pumpingInflate := false, rx.processing := false }
    stack := []
    entries := announced.entries ++ [.portData payload] }

/-- The readable cancelled, and the hold released. -/
def shut (payload : Bytes) (q : List Bytes) (n : Nat) (input : Bytes) : Config :=
  { s := { (idle payload q n input).s with
      rd.readShut := true
      rd.msgQ := []
      rx.discard := true
      rx.held := false
      rx.body := some { seq := 1, text := false, q := q, qBytes := n, cancelled := true } }
    stack := [.checkPause, .processInput, .updateInterest, .checkPause]
    entries := announced.entries ++ [.portData payload, .readShutdown] }

/-- The body's pair made and disposed of. -/
def disposed (payload : Bytes) (q : List Bytes) (n : Nat) (input : Bytes) : Config :=
  { s := { (shut payload q n input).s with out.events := [.BodyNeeded 1 false, .BodyDispose 5] }
    stack := []
    entries := announced.entries
      ++ [.portData payload, .readShutdown, .bodyReady 1 5, .bodyCancel 1] }

/-- The full body stops the inflater, and reading pauses. -/
theorem runs_waiting (hfull : kReadHighBytes ≤ n) :
    Runs AnyMove (full payload q n input) (waiting payload q n input) := by
  have hwait : Runs AnyMove (full payload q n input) _ := Runs.pops plainChoice .refl
    (inflateLoop_waits _ (full_bodyFull hfull rfl rfl))
  have hcheck := hwait.settles plainChoice 1 rfl
  exact hcheck.pops plainChoice (checkPause_stays _ (high_of_body rfl hfull) rfl)

/-- The frame ends while the inflater waits. -/
theorem runs_ended (hlen : payload.length = 3065) :
    Runs AnyMove (waiting payload q n input) (ended payload q n input) := by
  have hrem : 3065 - payload.length = 0 := by rw [hlen]
  have hend : Runs AnyMove (waiting payload q n input) _ := Runs.pops plainChoice .refl
    (feedAfterChunk_ends _ _ _ rfl hrem)
  exact hend.settles plainChoice 2 rfl

/-- The check finds the side already paused. -/
theorem runs_noted (hfull : kReadHighBytes ≤ n) :
    Runs AnyMove (ended payload q n input) (noted payload q n input) := by
  have hwait : Runs AnyMove (ended payload q n input) _ := Runs.pops plainChoice .refl
    (inflateLoop_waits _ (full_bodyFull hfull rfl rfl))
  have hcheck := hwait.settles plainChoice 1 rfl
  have hstay := hcheck.pops plainChoice (checkPause_stays _ (high_of_body rfl hfull) rfl)
  exact hstay.pops plainChoice (checkPause_stays _ (high_of_body rfl hfull) rfl)

/-- The turn ends with nothing left to do. -/
theorem runs_idle : Runs AnyMove (noted payload q n input) (idle payload q n input) :=
  Runs.settles plainChoice 4 .refl rfl

/-- The reading side is shut. -/
theorem runs_shut : Runs AnyMove (idle payload q n input) (shut payload q n input) := by
  have henter : Runs AnyMove (idle payload q n input) _ :=
    .single ⟨.enter .readShutdown, plainChoice, .inl ⟨rfl, trivial⟩, trivial, rfl⟩
  exact henter.settles plainChoice 2 rfl

/-- The body is cancelled without being pumped. -/
theorem runs_disposed (hfull : kReadHighBytes ≤ n) :
    Runs AnyMove (shut payload q n input) (disposed payload q n input) := by
  have hstay : Runs AnyMove (shut payload q n input) _ := Runs.pops plainChoice .refl
    (checkPause_stays _ (high_of_body rfl hfull) rfl)
  have hcheck := hstay.settles plainChoice 4 rfl
  have hidle := hcheck.pops plainChoice (checkPause_stays _ (high_of_body rfl hfull) rfl)
  exact (hidle.tail ⟨.enter (.bodyReady 1 5), plainChoice, .inl ⟨rfl, trivial⟩, trivial, rfl⟩).tail
    ⟨.enter (.bodyCancel 1), plainChoice, .inl ⟨rfl, trivial⟩, trivial, rfl⟩

/-- The message received whole with a full body, the readable cancelled, and the body's pair
    disposed of. -/
theorem runs_stalled (hfull : kReadHighBytes ≤ n) (hlen : payload.length = 3065) :
    Runs AnyMove (full payload q n input) (disposed payload q n input) :=
  (((((runs_waiting hfull).trans (runs_ended hlen)).trans (runs_noted hfull)).trans
    runs_idle).trans runs_shut).trans (runs_disposed hfull)

end

/-- A compressed message of 3 MiB received whole, the readable cancelled before its body is
    announced, and the body's pair disposed of: reading stays paused. -/
theorem checkPause_stalls :
    ¬ ∀ cfg c, Runs AnyMove (Config.start cfg) c → c.stack = [] → PausedForProgram c.s := by
  intro h
  have hrun := (runs_pieces zeros_length (k := 15) (by decide)).trans
    (runs_stalled (Nat.le_refl _) zeros_length)
  obtain ⟨-, hwants⟩ := h _ _ hrun rfl rfl rfl rfl
  refine absurd (hwants rfl fun b hb => ?_) Bool.false_ne_true
  obtain rfl := Option.some.inj hb
  rfl

end WsCore
