import CaptureLR.ClassTable
import CaptureLR.Parse.Slots
import CaptureLR.Table

/-!
# The parsing machine

The machine keeps a stack of frames, one for every span that was recognised, with the state
behind it, the tokens it covers and the values captured in it. A step shifts the lookahead,
replaces the frames of a rule's expansion by one for its head, or ends the parse. The source
of the tokens is any state that yields items one at a time; behind its last item it yields
the end of the input again and again.
-/

namespace CaptureLR

/-- A recognised span: the state behind it, the consumed tokens from `first` up to `stop`, and
what was captured. -/
structure Frame where
  state : Nat
  first : Nat
  stop : Nat
  slots : Slots
deriving Inhabited

/-- The machine in the middle of a parse. -/
structure Config (σ : Type) where
  /-- The stack, its top first. -/
  frames : List Frame
  /-- The tokens shifted so far. -/
  consumed : Array Token
  /-- The token that is next to be shifted. -/
  lookahead : Token
  /-- The end of the last token that was fetched. -/
  lastEnd : Position
  /-- Where further tokens come from. -/
  source : σ

/-- What a parse ends with. -/
abbrev ParseResult := Except ParseFailure Value

/-- What a step leads to. -/
inductive Step (σ : Type) where
  | continue (c : Config σ)
  | done (r : ParseResult)

/-- A table and the classes its captures refer to. -/
structure Machine where
  table : Table
  classes : ClassTable
deriving Inhabited

/-- The next token of a source, the end of the last token fetched and the source behind it. -/
def fetch {σ : Type} (next : σ → Option (TokenItem × σ)) (lastEnd : Position) (source : σ) :
    Except TokenizeError (Token × Position × σ) :=
  match next source with
  | some (.ok t, source) => .ok (t, t.stop, source)
  | some (.error e, _) => .error e
  | none => .ok (.endOfInput lastEnd, lastEnd, source)

namespace Machine

/-- The consumed tokens from `first` up to `stop`. -/
def span (consumed : Array Token) (first stop : Nat) : List Token :=
  (consumed.extract first stop).toList

/-- The slots of a span with its capture stored. A node takes all that was captured in the span;
a span without tokens has the end of the input at the position of the lookahead for its first
token. -/
def capture (m : Machine) (state : Nat) (consumed : Array Token) (first stop : Nat)
    (position : Position) (slots : Slots) (c : Capture) : Except ParseFailure Slots :=
  match c.kind with
  | .node id =>
      match m.classes.get? id with
      | none => .error (.invalidTable state (.nodeClass id))
      | some n => .ok (Slots.store ∅ c (n.value slots.captures) n.standsForArray)
  | .token =>
      let token := (span consumed first stop).head?.getD (.endOfInput position)
      .ok (slots.store c (.token token) false)
  | .span => .ok (slots.store c (.array ((span consumed first stop).map Value.token)) false)

/-- The frames after a reduction. -/
def reduce (m : Machine) (r : Reduction) (state : Nat) (frames : List Frame)
    (consumed : Array Token) (position : Position) : Except ParseFailure (List Frame) :=
  match frames.drop r.popCount with
  | [] => .error (.invalidTable state .deepReduction)
  | exposed :: below =>
      let popped := (frames.take r.popCount).reverse
      let first := (popped.head?.map Frame.first).getD consumed.size
      let stop := (popped.getLast?.map Frame.stop).getD consumed.size
      let slots := Slots.joinAll (popped.map Frame.slots)
      let captured : Except ParseFailure Slots := match r.capture with
        | none => .ok slots
        | some c => m.capture state consumed first stop position slots c
      match captured with
      | .error e => .error e
      | .ok slots =>
          match m.table.successor? exposed.state r.into with
          | none => .error (.invalidTable exposed.state (.successor r.into))
          | some target => .ok (⟨target, first, stop, slots⟩ :: exposed :: below)

/-- The value that the frames of an accepting state stand for: what was captured as `root`. -/
def rootValue (slots : Slots) : Value := ((slots.get? "root").map Slot.value).getD .absent

/-- One step of the machine. -/
def step {σ : Type} (m : Machine) (next : σ → Option (TokenItem × σ)) (c : Config σ) : Step σ :=
  match c.frames with
  | [] => .done (.error (.invalidTable 0 .initialHead))
  | top :: below =>
      match m.table.states[top.state]? with
      | none => .done (.error (.invalidTable top.state .currentState))
      | some row =>
          if row.accepting then .done (.ok (rootValue top.slots))
          else
            match row.actions.get? c.lookahead.lookahead.toColumn with
            | none => .done (.error (.parse ⟨c.lookahead, m.table.expected top.state⟩))
            | some (.shift target) =>
                match fetch next c.lastEnd c.source with
                | .error e => .done (.error (.tokenize e))
                | .ok (token, lastEnd, source) =>
                    let index := c.consumed.size
                    .continue ⟨⟨target, index, index + 1, ∅⟩ :: top :: below,
                      c.consumed.push c.lookahead, token, lastEnd, source⟩
            | some (.reduce rule) =>
                match m.table.reductions.get? rule with
                | none => .done (.error (.invalidTable top.state (.reduction rule)))
                | some r =>
                    match m.reduce r top.state (top :: below) c.consumed c.lookahead.start with
                    | .error e => .done (.error e)
                    | .ok frames => .continue { c with frames }

/-- The result of a run, if it ends within the allowed number of steps. -/
def run {σ : Type} (m : Machine) (next : σ → Option (TokenItem × σ)) :
    Nat → Config σ → Option ParseResult
  | 0, _ => none
  | fuel + 1, c =>
      match m.step next c with
      | .done r => some r
      | .continue c => run m next fuel c

/-- The machine before the first step, or the error of the first token. -/
def start {σ : Type} (next : σ → Option (TokenItem × σ)) (source : σ) :
    Except TokenizeError (Config σ) :=
  match fetch next .start source with
  | .error e => .error e
  | .ok (token, lastEnd, source) => .ok ⟨[⟨0, 0, 0, ∅⟩], #[], token, lastEnd, source⟩

/-- The result of parsing a source of tokens, if it ends within the allowed number of steps. -/
def parse {σ : Type} (m : Machine) (next : σ → Option (TokenItem × σ)) (fuel : Nat) (source : σ) :
    Option ParseResult :=
  match start next source with
  | .error e => some (.error (.tokenize e))
  | .ok c => m.run next fuel c

/-! ### How long a parse can take -/

/-- How many steps can be taken above some height of the stack, if only so many states may
stand there: each of them is on top at most once, and the others may stand above it. -/
def visits : Nat → Nat
  | 0 => 0
  | states + 1 => (states + 1) * (1 + visits states)

/-- More steps than a parse that ends can take, by the number of states and of the items of the
source. Between two items the lookahead stays the same, and so it does behind the last one; in
such a phase the stack grows by no more than the number of states, and a state that comes to
the top twice, with nothing below it touched in between, comes there forever. -/
def stepBound (states items : Nat) : Nat :=
  let phases := items + 2
  phases * ((phases * (states + 1) + 2) * (visits states + 1)) + 1

end Machine

end CaptureLR
