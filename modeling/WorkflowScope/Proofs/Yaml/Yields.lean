import WorkflowScope.Yaml.Grammar

/-!
# What a piece of the grammar yields

Every piece of the grammar either refuses the tokens or yields a value and a new reader. One rule
for each way in which pieces are built; a refusal yields whatever is asked.
-/

namespace WorkflowScope.Yaml.Grammar

variable {α β : Type} {r : Reader}

/-- If the piece does not refuse, what it yields is as asked. -/
def Yields (piece : Step α) (r : Reader) (post : α → Reader → Prop) : Prop :=
  ∀ a after, piece.run r = .ok (a, after) → post a after

namespace Yields

theorem pure {a : α} {post : α → Reader → Prop} (holds : post a r) :
    Yields (Pure.pure a : Step α) r post := by
  rintro b after ⟨⟩
  exact holds

theorem bind {piece : Step α} {next : α → Step β} {post : β → Reader → Prop}
    (first : Yields piece r fun a after => Yields (next a) after post) :
    Yields (piece >>= next) r post := by
  intro b after run
  rw [StateT.run_bind] at run
  cases piece_run : piece.run r with
  | error fault => rw [piece_run] at run; cases run
  | ok result =>
      rw [piece_run] at run
      exact first result.1 result.2 piece_run b after run

theorem peek {post : ReadToken → Reader → Prop}
    (found : ∀ token rest, r.tokens = token :: rest →
      post token { r with reached := token.reached }) : Yields Grammar.peek r post := by
  intro token after run
  simp only [Grammar.peek, StateT.run_bind, StateT.run_get, pure_bind] at run
  split at run
  · cases run
  · rename_i front rest tokens
    cases run
    exact found _ rest tokens

theorem reading {post : Reader → Reader → Prop} (holds : post r r) :
    Yields (get : Step Reader) r post := by
  rintro s after ⟨⟩
  exact holds

theorem changing {change : Reader → Reader} {post : Unit → Reader → Prop}
    (holds : post () (change r)) : Yields (modify change : Step Unit) r post := by
  rintro u after ⟨⟩
  exact holds

theorem advance {token : ReadToken} {rest : List ReadToken} {post : Unit → Reader → Prop}
    (tokens : r.tokens = token :: rest) (holds : post () { r with tokens := rest }) :
    Yields Grammar.advance r post := by
  refine changing ?_
  simpa only [tokens, List.tail_cons] using holds

theorem goTo {state : State} {post : Unit → Reader → Prop} (holds : post () { r with state }) :
    Yields (Grammar.goTo state) r post :=
  changing holds

theorem returnTo {state : State} {post : Unit → Reader → Prop}
    (holds : post () { r with stack := state :: r.stack }) :
    Yields (Grammar.returnTo state) r post :=
  changing holds

theorem leave {post : Unit → Reader → Prop}
    (holds : post () { r with state := r.stack.headD .streamEnd, stack := r.stack.tail }) :
    Yields Grammar.leave r post :=
  changing holds

theorem refuse {fault : Fault} {mark : Mark} {post : α → Reader → Prop} :
    Yields (Grammar.refuse fault mark : Step α) r post := by
  rintro a after ⟨⟩

theorem emptyThen {state : State} {mark : Mark} {post : MarkedEvent → Reader → Prop}
    (holds : post ⟨mark, .empty⟩ { r with state }) : Yields (Grammar.emptyThen state mark) r post :=
  bind (goTo (pure holds))

theorem close {event : Event} {mark : Mark} {token : ReadToken} {rest : List ReadToken}
    {post : MarkedEvent → Reader → Prop} (tokens : r.tokens = token :: rest)
    (holds : post ⟨mark, event⟩
      { r with state := r.stack.headD .streamEnd, stack := r.stack.tail, tokens := rest }) :
    Yields (Grammar.close event mark) r post :=
  bind (leave (bind (advance tokens (pure holds))))

theorem opened {post : Unit → Reader → Prop}
    (found : ∀ token rest, r.tokens = token :: rest →
      post () { r with tokens := rest, reached := token.reached }) :
    Yields Grammar.opened r post :=
  bind (peek fun token rest tokens => advance tokens (found token rest tokens))

/-- A declared handle changes nothing. -/
theorem checkHandle {handle : List Char} {mark : Mark} {post : Unit → Reader → Prop}
    (holds : post () r) : Yields (Grammar.checkHandle handle mark) r post := by
  refine bind (reading ?_)
  split
  · exact refuse
  · exact pure holds

theorem declareAnchor {name : List Char} {post : Unit → Reader → Prop}
    (holds : post () { r with anchors := name :: r.anchors }) :
    Yields (Grammar.declareAnchor name) r post :=
  changing holds

end Yields

end WorkflowScope.Yaml.Grammar
