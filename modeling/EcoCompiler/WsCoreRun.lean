import EcoCompiler.WsCoreStep
import Mathlib.Logic.Relation

/-! # Runs of the WebSocket state machine

    * `WsCore.Config` — a core, the pieces still to run, and the entry points called;
    * `WsCore.Move` — an entry point called, or the piece at the top of the stack run;
    * `WsCore.Runs` — any number of moves, each of which meets a condition;
    * `WsCore.Runs.invariant` — what every move keeps holds in every state of a run. -/

namespace WsCore

/-- A core between two moves. -/
structure Config where
  s : State
  stack : List Stmt := []
  entries : List Entry := []

/-- A core before its first entry point. -/
def Config.start (cfg : WsConfig) : Config := { s := { cfg := cfg } }

/-- The entry points a port calls from inside a port call. -/
def Entry.isCallback : Entry → Bool
  | .portData _ => true
  | .portWritable => true
  | .written _ _ => true
  | .portClosed => true
  | _ => false

/-- What callers promise: a stream is opened once, as text or binary. -/
def Entry.Admitted (s : State) : Entry → Prop
  | .openOutgoing seq opcode =>
      seq ∉ s.out.opened ∧ (opcode = WsFrame.kOpText ∨ opcode = WsFrame.kOpBinary)
  | _ => True

/-- A move of a run. -/
inductive Move where
  | enter (e : Entry)
  | run

/-- Whether a move is possible: any entry point between entry points, a callback inside a
    port call, and the next piece otherwise. -/
def Config.Allows (c : Config) : Move → Prop
  | .enter e =>
      (c.stack = [] ∧ e.Admitted c.s) ∨ (c.stack.head? = some .inPort ∧ e.isCallback = true)
  | .run => c.stack ≠ []

/-- The core after a move. -/
def Config.after (ch : Choice) (c : Config) : Move → Config
  | .enter e =>
      let r := c.s.enter ch e
      { s := r.1, stack := r.2 ++ c.stack, entries := c.entries ++ [e] }
  | .run =>
      match c.stack with
      | [] => c
      | p :: k =>
          let r := c.s.exec ch p
          { c with s := r.1, stack := r.2 ++ k }

/-- One move that meets `ok`. -/
def Next (ok : Config → Move → Prop) (a b : Config) : Prop :=
  ∃ m ch, a.Allows m ∧ ok a m ∧ b = a.after ch m

/-- A run all of whose moves meet `ok`. -/
def Runs (ok : Config → Move → Prop) : Config → Config → Prop := Relation.ReflTransGen (Next ok)

/-- A run with no condition on its moves. -/
abbrev AnyMove : Config → Move → Prop := fun _ _ => True

/-- What every move keeps holds in every state of a run. -/
theorem Runs.invariant {ok : Config → Move → Prop} {I : Config → Prop}
    (hmove : ∀ a m ch, I a → a.Allows m → ok a m → I (a.after ch m)) {a b : Config}
    (hrun : Runs ok a b) (ha : I a) : I b := by
  induction hrun with
  | refl => exact ha
  | tail _ hnext ih =>
      obtain ⟨m, ch, hallows, hok, rfl⟩ := hnext
      exact hmove _ m ch ih hallows hok

/-- An invariant of the state and the stack is kept by a move when each entry point and
    each piece keeps it. -/
theorem Config.move_of_exec {I : State → List Stmt → Prop} {ok : Config → Move → Prop}
    (henter : ∀ c e ch, I c.s c.stack → c.Allows (.enter e) → ok c (.enter e) →
      I (c.s.enter ch e).1 ((c.s.enter ch e).2 ++ c.stack))
    (hexec : ∀ c p k ch, c.stack = p :: k → I c.s (p :: k) → ok c .run →
      I (c.s.exec ch p).1 ((c.s.exec ch p).2 ++ k)) :
    ∀ a m ch, I a.s a.stack → a.Allows m → ok a m → I (a.after ch m).s (a.after ch m).stack := by
  intro a m ch hI hallows hok
  cases m with
  | enter e => exact henter a e ch hI hallows hok
  | run =>
      cases hstack : a.stack with
      | nil => exact absurd hstack hallows
      | cons p k =>
          rw [hstack] at hI
          show I (a.after ch .run).s (a.after ch .run).stack
          rw [Config.after, hstack]
          exact hexec a p k ch hstack hI hok

/-- Runs pieces until the stack is empty, at most `fuel` of them. -/
def Config.settle (ch : Choice) : Nat → Config → Config
  | 0, c => c
  | fuel + 1, c => if c.stack.isEmpty then c else Config.settle ch fuel (c.after ch .run)

theorem Config.runs_settle {ok : Config → Move → Prop} (ch : Choice) :
    ∀ {n : Nat} {c : Config}, (∀ i < n, ok (c.settle ch i) .run) → Runs ok c (c.settle ch n)
  | 0, c, _ => .refl
  | n + 1, c, hok => by
      rw [Config.settle]
      split
      · exact .refl
      · rename_i hstack
        refine .head ⟨.run, ch, ?_, hok 0 (Nat.succ_pos n), rfl⟩ (Config.runs_settle ch ?_)
        · exact fun hnil => hstack (List.isEmpty_iff.mpr hnil)
        · intro i hi
          have hnext := hok (i + 1) (Nat.succ_lt_succ hi)
          rwa [Config.settle, if_neg hstack] at hnext

/-- An entry point called between entry points, and its pieces run. -/
def Config.call (ch : Choice) (n : Nat) (c : Config) (e : Entry) : Config :=
  (c.after ch (.enter e)).settle ch n

theorem Config.runs_call {ok : Config → Move → Prop} {ch : Choice} {n : Nat} {c : Config}
    {e : Entry} (hstack : c.stack = []) (hadmitted : e.Admitted c.s) (hok : ok c (.enter e))
    (hrun : ∀ i < n, ok ((c.after ch (.enter e)).settle ch i) .run) :
    Runs ok c (c.call ch n e) :=
  .head ⟨.enter e, ch, .inl ⟨hstack, hadmitted⟩, hok, rfl⟩ (Config.runs_settle ch hrun)

end WsCore
