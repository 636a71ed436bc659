import WorkflowScope.Editor.Session

/-!
# Registering once

Documents may get the focus while earlier focus changes still wait for the editor. A lobby is the
bridge together with every focus change that was ever begun and every call to the command runner; a
schedule is a list of moves, in any order that lets each focus change wait for its answers. Whatever
the schedule and the answers, the runner is activated at most once and handed the queries at most
once.
-/

namespace WorkflowScope

/-- A call to the command runner. Focus changes are known by their place among all of them. -/
inductive RunnerCall where
  | installed (id : Nat)
  | activate (id : Nat)
  | register (id : Nat) (languageId : String) (provider : CommandProvider)
  deriving DecidableEq, Repr

/-- A focus change and how far it has come. -/
structure FocusChange where
  document : Option Document
  stage : Bridge.Focus
  deriving DecidableEq, Repr

/-- The bridge, all focus changes and all calls, the first in front. -/
structure Lobby where
  bridge : Bridge
  changes : List FocusChange := []
  calls : List RunnerCall := []
  deriving DecidableEq, Repr

inductive FocusMove where
  /-- A document, or none, gets the focus. -/
  | focus (document : Option Document)
  /-- The editor has answered whether the runner is installed. -/
  | installed (id : Nat) (answer : Bool)
  /-- Activation has ended, or has failed. -/
  | activated (id : Nat) (answer : Bool)
  deriving DecidableEq, Repr

namespace FocusMove

def document? : FocusMove → Option (Option Document)
  | focus document => some document
  | _ => none

def documents (moves : List FocusMove) : List (Option Document) :=
  moves.filterMap document?

theorem documents_concat (moves : List FocusMove) (move : FocusMove) :
    documents (moves ++ [move]) = documents moves ++ move.document?.toList := by
  cases found : move.document? <;> simp [documents, found]

end FocusMove

namespace Lobby

def initial (languageId : String) (provider : CommandProvider) : Lobby :=
  { bridge := { languageId, provider } }

/-- The call with which a focus change goes on. -/
def callFor (id : Nat) : Bridge.Focus → List RunnerCall
  | .done _ => []
  | .asksInstalled => [.installed id]
  | .activates => [.activate id]

def handOver (id : Nat) : Option (String × CommandProvider) → List RunnerCall
  | some (languageId, provider) => [.register id languageId provider]
  | none => []

/-- Makes a move. A focus change that does not wait for an answer cannot get it. -/
def step? (lobby : Lobby) : FocusMove → Option Lobby
  | .focus document =>
      let stage := lobby.bridge.focus (document.map (·.path))
      some
        { lobby with
          changes := lobby.changes ++ [⟨document, stage⟩]
          calls := lobby.calls ++ callFor lobby.changes.length stage }
  | .installed id answer =>
      match lobby.changes[id]? with
      | some ⟨document, .asksInstalled⟩ =>
          let (bridge, stage) := lobby.bridge.answerInstalled answer
          some
            { bridge
              changes := lobby.changes.set id ⟨document, stage⟩
              calls := lobby.calls ++ callFor id stage }
      | _ => none
  | .activated id answer =>
      match lobby.changes[id]? with
      | some ⟨document, .activates⟩ =>
          some
            { lobby with
              changes := lobby.changes.set id ⟨document, .done .registered⟩
              calls := lobby.calls ++ handOver id (lobby.bridge.registration? answer) }
      | _ => none

def run? (lobby : Lobby) : List FocusMove → Option Lobby
  | [] => some lobby
  | move :: rest => (lobby.step? move).bind (run? · rest)

/-- The focus changes that have asked for activation. -/
def activations (lobby : Lobby) : List Nat :=
  lobby.calls.filterMap fun
    | .activate id => some id
    | _ => none

def registrations (lobby : Lobby) : List (Nat × String × CommandProvider) :=
  lobby.calls.filterMap fun
    | .register id languageId provider => some (id, languageId, provider)
    | _ => none

theorem run?_append (lobby : Lobby) (first rest : List FocusMove) :
    lobby.run? (first ++ rest) = (lobby.run? first).bind (run? · rest) := by
  induction first generalizing lobby with
  | nil => rfl
  | cons move first ih =>
      simp only [List.cons_append, run?, Option.bind_assoc]
      exact Option.bind_congr fun after _ => ih after

/-- All that a move can do: a focus change begins, is told that it is late or that the runner is
missing, asks for activation, or ends. -/
theorem step?_cases {lobby after : Lobby} {move : FocusMove}
    (stepped : lobby.step? move = some after) :
    (∃ document stage, move = .focus document ∧
      stage = lobby.bridge.focus (document.map (·.path)) ∧
      after = { lobby with
        changes := lobby.changes ++ [⟨document, stage⟩]
        calls := lobby.calls ++ callFor lobby.changes.length stage }) ∨
    (∃ id answer document, move = .installed id answer ∧
      lobby.changes[id]? = some ⟨document, .asksInstalled⟩ ∧
      (answer = true → lobby.bridge.state = .registered) ∧
      after = { lobby with
        changes := lobby.changes.set id ⟨document, .done lobby.bridge.state⟩ }) ∨
    (∃ id document, move = .installed id true ∧
      lobby.changes[id]? = some ⟨document, .asksInstalled⟩ ∧
      lobby.bridge.state = .unregistered ∧
      after =
        { bridge := { lobby.bridge with state := .registered }
          changes := lobby.changes.set id ⟨document, .activates⟩
          calls := lobby.calls ++ [.activate id] }) ∨
    (∃ id answer document, move = .activated id answer ∧
      lobby.changes[id]? = some ⟨document, .activates⟩ ∧
      after = { lobby with
        changes := lobby.changes.set id ⟨document, .done .registered⟩
        calls := lobby.calls ++ handOver id (lobby.bridge.registration? answer) }) := by
  cases move with
  | focus document => exact .inl ⟨document, _, rfl, rfl, (Option.some.inj stepped).symm⟩
  | installed id answer =>
      simp only [step?] at stepped
      split at stepped
      · next document waits =>
          obtain rfl := Option.some.inj stepped
          cases answer with
          | false => exact .inr (.inl ⟨id, false, document, rfl, waits, nofun, by
              simp [Bridge.answerInstalled, callFor]⟩)
          | true =>
              cases state : lobby.bridge.state with
              | registered => exact .inr (.inl ⟨id, true, document, rfl, waits, fun _ => rfl, by
                  simp [Bridge.answerInstalled, state, callFor]⟩)
              | unregistered => exact .inr (.inr (.inl ⟨id, document, rfl, waits, rfl, by
                  simp [Bridge.answerInstalled, state, callFor]⟩))
      · cases stepped
  | activated id answer =>
      simp only [step?] at stepped
      split at stepped
      · next document waits =>
          exact .inr (.inr (.inr
            ⟨id, answer, document, rfl, waits, (Option.some.inj stepped).symm⟩))
      · cases stepped

/-! ## How far activation has come -/

/-- What has become of activation in a lobby. -/
inductive Activation where
  | notAsked
  | asked (id : Nat)
  | ended (id : Nat) (answer : Bool)
  deriving DecidableEq, Repr

namespace Activation

def state : Activation → Registration
  | notAsked => .unregistered
  | _ => .registered

def asker? : Activation → Option Nat
  | notAsked => none
  | asked id => some id
  | ended id _ => some id

def handed (languageId : String) (provider : CommandProvider) :
    Activation → List (Nat × String × CommandProvider)
  | ended id true => [(id, languageId, provider)]
  | _ => []

end Activation

def Suits (provider : CommandProvider) (document : Option Document) : Prop :=
  ∃ found, document = some found ∧ provider.selector.selects found.path = true

/-- What a lobby and the moves that led to it tell about activation. -/
structure Tells (languageId : String) (provider : CommandProvider) (activation : Activation)
    (lobby : Lobby) (moves : List FocusMove) : Prop where
  bridge_eq : lobby.bridge = { state := activation.state, languageId, provider }
  documents_eq : lobby.changes.map (·.document) = FocusMove.documents moves
  activations_eq : lobby.activations = activation.asker?.toList
  registrations_eq : lobby.registrations = activation.handed languageId provider
  suits : ∀ change ∈ lobby.changes, change.stage = .asksInstalled → Suits provider change.document
  waits : ∀ id document, lobby.changes[id]? = some ⟨document, .activates⟩ → activation = .asked id
  answers : ∀ id answer, .activated id answer ∈ moves ↔ activation = .ended id answer
  chosen : ∀ id ∈ activation.asker?, .installed id true ∈ moves ∧
    ∃ document, (FocusMove.documents moves)[id]? = some document ∧ Suits provider document

variable {languageId : String} {provider : CommandProvider} {activation : Activation}
  {lobby after : Lobby} {moves : List FocusMove} {move : FocusMove}

theorem tells_initial : Tells languageId provider .notAsked (initial languageId provider) [] where
  bridge_eq := rfl
  documents_eq := rfl
  activations_eq := rfl
  registrations_eq := rfl
  suits := by simp [initial]
  waits := by simp [initial]
  answers := by simp
  chosen := by simp [Activation.asker?]

/-- A focus change ends at once, or it is to a document that suits and asks for the runner. -/
theorem focus_cases (bridge : Bridge) (document : Option Document) :
    (∃ state, bridge.focus (document.map (·.path)) = .done state) ∨
      (bridge.focus (document.map (·.path)) = .asksInstalled ∧ Suits bridge.provider document) := by
  cases state : bridge.state with
  | registered => exact .inl ⟨.registered, by simp [Bridge.focus, state]⟩
  | unregistered =>
      cases document with
      | none => exact .inl ⟨.unregistered, by simp [Bridge.focus, state]⟩
      | some found =>
          cases selected : bridge.provider.selector.selects found.path with
          | false => exact .inl ⟨.unregistered, by simp [Bridge.focus, state, selected]⟩
          | true =>
              exact .inr ⟨by simp [Bridge.focus, state, selected], found, rfl, selected⟩

/-- A stage changes, but not the document. -/
theorem map_document_set {changes : List FocusChange} {id : Nat} {document : Option Document}
    {old : Bridge.Focus} (found : changes[id]? = some ⟨document, old⟩) (new : Bridge.Focus) :
    (changes.set id ⟨document, new⟩).map (·.document) = changes.map (·.document) := by
  have bound : id < changes.length := (List.getElem?_eq_some_iff.1 found).1
  apply List.ext_getElem?
  intro i
  rw [List.getElem?_map, List.getElem?_map]
  by_cases here : id = i
  · subst here
    rw [List.getElem?_set_self bound, found]
    rfl
  · rw [List.getElem?_set_ne here]

namespace Tells

/-- Moves are added to those that an earlier choice rests on. -/
theorem chosen_concat (tells : Tells languageId provider activation lobby moves)
    (move : FocusMove) : ∀ id ∈ activation.asker?, .installed id true ∈ moves ++ [move] ∧
      ∃ document, (FocusMove.documents (moves ++ [move]))[id]? = some document ∧
        Suits provider document := by
  intro id asks
  obtain ⟨answered, document, found, suits⟩ := tells.chosen id asks
  refine ⟨List.mem_append_left _ answered, document, ?_, suits⟩
  have bound := (List.getElem?_eq_some_iff.1 found).1
  rw [FocusMove.documents_concat, List.getElem?_append_left bound, found]

/-- What got the focus in a change that waits. -/
theorem getElem?_documents (tells : Tells languageId provider activation lobby moves) {id : Nat}
    {change : FocusChange} (found : lobby.changes[id]? = some change) :
    (FocusMove.documents moves)[id]? = some change.document := by
  rw [← tells.documents_eq, List.getElem?_map, found]
  rfl

/-- A focus change that does not ask for activation begins. -/
theorem begins (tells : Tells languageId provider activation lobby moves)
    (document : Option Document) :
    Tells languageId provider activation
      { lobby with
        changes := lobby.changes ++ [⟨document, lobby.bridge.focus (document.map (·.path))⟩]
        calls := lobby.calls ++
          callFor lobby.changes.length (lobby.bridge.focus (document.map (·.path))) }
      (moves ++ [.focus document]) := by
  have quiet : lobby.bridge.focus (document.map (·.path)) ≠ .activates := by
    rcases focus_cases lobby.bridge document with ⟨state, same⟩ | ⟨same, -⟩ <;> simp [same]
  have silent : callFor lobby.changes.length (lobby.bridge.focus (document.map (·.path))) = [] ∨
      callFor lobby.changes.length (lobby.bridge.focus (document.map (·.path))) =
        [.installed lobby.changes.length] := by
    rcases focus_cases lobby.bridge document with ⟨state, same⟩ | ⟨same, -⟩ <;> simp [same, callFor]
  constructor
  · exact tells.bridge_eq
  · simp [FocusMove.documents_concat, FocusMove.document?, tells.documents_eq]
  · rw [← tells.activations_eq]
    rcases silent with same | same <;> simp [activations, same]
  · rw [← tells.registrations_eq]
    rcases silent with same | same <;> simp [registrations, same]
  · intro change member asks
    rcases List.mem_append.1 member with earlier | here
    · exact tells.suits change earlier asks
    · obtain rfl := List.mem_singleton.1 here
      rcases focus_cases lobby.bridge document with ⟨state, same⟩ | ⟨-, suits⟩
      · rw [same] at asks
        cases asks
      · rwa [tells.bridge_eq] at suits
  · intro id waiting found
    by_cases earlier : id < lobby.changes.length
    · rw [List.getElem?_append_left earlier] at found
      exact tells.waits id waiting found
    · rw [List.getElem?_append_right (Nat.not_lt.1 earlier)] at found
      have last := List.mem_singleton.1 (List.mem_of_getElem? found)
      exact absurd (congrArg FocusChange.stage last).symm quiet
  · intro id answer
    simp [tells.answers]
  · exact tells.chosen_concat _

/-- What is known of the focus changes when one of them goes on to another stage. -/
theorem goesOn (tells : Tells languageId provider activation lobby moves) {id : Nat}
    {document : Option Document} {old new : Bridge.Focus} (found : lobby.changes[id]? = some ⟨document, old⟩)
    (later : new ≠ .asksInstalled) :
    (∀ change ∈ lobby.changes.set id ⟨document, new⟩, change.stage = .asksInstalled →
      Suits provider change.document) ∧
    (∀ other waiting, (lobby.changes.set id ⟨document, new⟩)[other]? = some ⟨waiting, .activates⟩ →
      (other = id ∧ new = .activates) ∨ (other ≠ id ∧ activation = .asked other)) := by
  have bound : id < lobby.changes.length := (List.getElem?_eq_some_iff.1 found).1
  constructor
  · intro change member asks
    rcases List.mem_or_eq_of_mem_set member with earlier | rfl
    · exact tells.suits change earlier asks
    · exact absurd asks later
  · intro other waiting stands
    by_cases here : id = other
    · subst here
      rw [List.getElem?_set_self bound] at stands
      exact .inl ⟨rfl, congrArg FocusChange.stage (Option.some.inj stands)⟩
    · rw [List.getElem?_set_ne here] at stands
      exact .inr ⟨Ne.symm here, tells.waits other waiting stands⟩

/-- A focus change ends without asking for activation. -/
theorem turnsAway (tells : Tells languageId provider activation lobby moves) {id : Nat} {answer : Bool}
    {document : Option Document} (found : lobby.changes[id]? = some ⟨document, .asksInstalled⟩) :
    Tells languageId provider activation
      { lobby with changes := lobby.changes.set id ⟨document, .done lobby.bridge.state⟩ }
      (moves ++ [.installed id answer]) := by
  have later : Bridge.Focus.done lobby.bridge.state ≠ .asksInstalled := by simp
  obtain ⟨suits, waits⟩ := tells.goesOn found later
  constructor
  · exact tells.bridge_eq
  · rw [map_document_set found, tells.documents_eq]
    simp [FocusMove.documents_concat, FocusMove.document?]
  · exact tells.activations_eq
  · exact tells.registrations_eq
  · exact suits
  · intro other waiting stands
    rcases waits other waiting stands with ⟨-, ended⟩ | ⟨-, asked⟩
    · cases ended
    · exact asked
  · intro other given
    simp [tells.answers]
  · exact tells.chosen_concat _

/-- The first focus change that finds the runner installed asks for activation. -/
theorem asks (tells : Tells languageId provider activation lobby moves) {id : Nat}
    {document : Option Document} (found : lobby.changes[id]? = some ⟨document, .asksInstalled⟩)
    (state : lobby.bridge.state = .unregistered) :
    Tells languageId provider (.asked id)
      { bridge := { lobby.bridge with state := .registered }
        changes := lobby.changes.set id ⟨document, .activates⟩
        calls := lobby.calls ++ [.activate id] }
      (moves ++ [.installed id true]) := by
  have later : Bridge.Focus.activates ≠ .asksInstalled := by simp
  obtain ⟨suits, waits⟩ := tells.goesOn found later
  -- As the bridge is not registered, nothing has been asked or answered before.
  obtain rfl : activation = .notAsked := by
    rw [tells.bridge_eq] at state
    cases activation with
    | notAsked => rfl
    | asked _ => cases state
    | ended _ _ => cases state
  constructor
  · rw [tells.bridge_eq]
    rfl
  · rw [map_document_set found, tells.documents_eq]
    simp [FocusMove.documents_concat, FocusMove.document?]
  · have before := tells.activations_eq
    simp only [activations, Activation.asker?, Option.toList] at before ⊢
    simp [before]
  · have before := tells.registrations_eq
    simp only [registrations, Activation.handed] at before ⊢
    simp [before]
  · exact suits
  · intro other waiting stands
    rcases waits other waiting stands with ⟨rfl, -⟩ | ⟨-, asked⟩
    · rfl
    · cases asked
  · intro other given
    simp [tells.answers]
  · intro other asker
    obtain rfl := Option.some.inj asker
    refine ⟨List.mem_append_right _ (List.mem_singleton.2 rfl), document, ?_, ?_⟩
    · have bound := (List.getElem?_eq_some_iff.1 (tells.getElem?_documents found)).1
      rw [FocusMove.documents_concat, List.getElem?_append_left bound,
        tells.getElem?_documents found]
    · exact tells.suits _ (List.mem_of_getElem? found) rfl

/-- Activation ends, and after a success the queries are handed over. -/
theorem ends (tells : Tells languageId provider activation lobby moves) {id : Nat} {answer : Bool}
    {document : Option Document} (found : lobby.changes[id]? = some ⟨document, .activates⟩) :
    Tells languageId provider (.ended id answer)
      { lobby with
        changes := lobby.changes.set id ⟨document, .done .registered⟩
        calls := lobby.calls ++ handOver id (lobby.bridge.registration? answer) }
      (moves ++ [.activated id answer]) := by
  obtain rfl : activation = .asked id := tells.waits id document found
  have later : Bridge.Focus.done .registered ≠ .asksInstalled := by simp
  obtain ⟨suits, waits⟩ := tells.goesOn found later
  constructor
  · exact tells.bridge_eq
  · rw [map_document_set found, tells.documents_eq]
    simp [FocusMove.documents_concat, FocusMove.document?]
  · have before := tells.activations_eq
    simp only [activations] at before ⊢
    cases answer <;> simp [before, handOver, Bridge.registration?, Activation.asker?]
  · have before := tells.registrations_eq
    simp only [registrations] at before ⊢
    cases answer <;>
      simp [before, handOver, Bridge.registration?, Activation.handed, tells.bridge_eq]
  · exact suits
  · intro other waiting stands
    rcases waits other waiting stands with ⟨-, ended⟩ | ⟨apart, asked⟩
    · cases ended
    · cases asked
      exact absurd rfl apart
  · intro other given
    simp [tells.answers, eq_comm]
  · exact tells.chosen_concat _

theorem step (tells : Tells languageId provider activation lobby moves)
    (stepped : lobby.step? move = some after) :
    ∃ next, Tells languageId provider next after (moves ++ [move]) := by
  obtain ⟨document, _, rfl, rfl, rfl⟩ | ⟨id, answer, document, rfl, found, -, rfl⟩ |
    ⟨id, document, rfl, found, state, rfl⟩ | ⟨id, answer, document, rfl, found, rfl⟩ :=
    step?_cases stepped
  · exact ⟨activation, tells.begins document⟩
  · exact ⟨activation, tells.turnsAway found⟩
  · exact ⟨.asked id, tells.asks found state⟩
  · exact ⟨.ended id answer, tells.ends found⟩

theorem run {rest : List FocusMove} (tells : Tells languageId provider activation lobby moves)
    (reached : lobby.run? rest = some after) :
    ∃ next, Tells languageId provider next after (moves ++ rest) := by
  induction rest generalizing lobby activation moves with
  | nil =>
      obtain rfl := Option.some.inj reached
      exact ⟨activation, by simpa using tells⟩
  | cons move rest ih =>
      obtain ⟨middle, first, rest⟩ := Option.bind_eq_some_iff.1 reached
      obtain ⟨next, tells⟩ := tells.step first
      simpa using ih tells rest

end Tells

/-! ## Sessions make these moves -/

/-- A focus change begins in a session as it does in the lobby. -/
theorem step?_focus_of_begin {session : Session} (agree : lobby.bridge = session.bridge)
    (document : Option Document) :
    ∃ stage, session.begin (.focus document) = (session, Session.ofFocus stage) ∧
      lobby.step? (.focus document) = some
        { lobby with
          changes := lobby.changes ++ [⟨document, stage⟩]
          calls := lobby.calls ++ callFor lobby.changes.length stage } := by
  refine ⟨session.bridge.focus (document.map (·.path)), rfl, ?_⟩
  rw [step?, agree]

/-- A session goes on after the answer about the runner as the lobby does. -/
theorem step?_installed_of_proceed {session : Session} {id : Nat} {document : Option Document}
    (agree : lobby.bridge = session.bridge)
    (waits : lobby.changes[id]? = some ⟨document, .asksInstalled⟩) (answer : Bool) :
    ∃ stage, (session.proceed .installed answer).2 = Session.ofFocus stage ∧
      lobby.step? (.installed id answer) = some
        { bridge := (session.proceed .installed answer).1.bridge
          changes := lobby.changes.set id ⟨document, stage⟩
          calls := lobby.calls ++ callFor id stage } := by
  refine ⟨(session.bridge.answerInstalled answer).2, rfl, ?_⟩
  simp only [step?, waits, agree, Session.proceed]

/-- A session hands over the queries after activation as the lobby does. -/
theorem step?_activated_of_proceed {session : Session} {id : Nat} {document : Option Document}
    (agree : lobby.bridge = session.bridge)
    (waits : lobby.changes[id]? = some ⟨document, .activates⟩) (answer : Bool) :
    session.proceed .activated answer = (session, Session.ofFocus (.done .registered)) ∧
      lobby.step? (.activated id answer) = some
        { lobby with
          changes := lobby.changes.set id ⟨document, .done .registered⟩
          calls := lobby.calls ++ handOver id (session.registration? .activated answer) } := by
  refine ⟨rfl, ?_⟩
  simp only [step?, waits, agree, Session.registration?]

/-! ## At most once -/

/-- The bridge stays registered. -/
theorem registered_step (registered : lobby.bridge.state = .registered)
    (stepped : lobby.step? move = some after) : after.bridge.state = .registered := by
  obtain ⟨_, _, -, -, rfl⟩ | ⟨_, _, _, -, -, -, rfl⟩ | ⟨_, _, -, -, -, rfl⟩ | ⟨_, _, _, -, -, rfl⟩ :=
    step?_cases stepped
  · exact registered
  · exact registered
  · rfl
  · exact registered

theorem registered_run (registered : lobby.bridge.state = .registered)
    (reached : lobby.run? moves = some after) : after.bridge.state = .registered := by
  induction moves generalizing lobby with
  | nil =>
      obtain rfl := Option.some.inj reached
      exact registered
  | cons move rest ih =>
      obtain ⟨middle, first, rest⟩ := Option.bind_eq_some_iff.1 reached
      exact ih (registered_step registered first) rest

/-- When activation ends it has been asked for by the focus change that gets the answer, and nothing
has been handed over. -/
theorem asked_of_activated {id : Nat} {answer : Bool}
    (reached : (initial languageId provider).run? moves = some lobby)
    (answered : .activated id answer ∈ moves) :
    ∃ first rest before, moves = first ++ .activated id answer :: rest ∧
      (initial languageId provider).run? first = some before ∧
      before.activations = [id] ∧ before.registrations = [] := by
  obtain ⟨first, rest, rfl⟩ := List.append_of_mem answered
  rw [run?_append] at reached
  obtain ⟨before, opening, last⟩ := Option.bind_eq_some_iff.1 reached
  obtain ⟨after, stepped, -⟩ := Option.bind_eq_some_iff.1 last
  refine ⟨first, rest, before, rfl, opening, ?_⟩
  obtain ⟨activation, tells⟩ := tells_initial.run opening
  have waiting : ∃ document, before.changes[id]? = some ⟨document, .activates⟩ := by
    simp only [step?] at stepped
    split at stepped
    · next document waits => exact ⟨document, waits⟩
    · cases stepped
  obtain ⟨document, waits⟩ := waiting
  obtain rfl := tells.waits id document waits
  exact ⟨tells.activations_eq, tells.registrations_eq⟩

/-- Whatever gets the focus, whatever the editor answers and in whichever order: activation is asked
for at most once, by a focus change to a workflow file that was told that the runner is installed;
queries are handed over at most once, when that activation has succeeded, and they are those of the
bridge; the bridge is registered from the moment at which activation is asked for; and after a
failure nothing is handed over. -/
theorem registers_at_most_once
    (reached : (initial languageId provider).run? moves = some lobby) :
    (lobby.activations.length ≤ 1 ∧
      ∀ id ∈ lobby.activations, .installed id true ∈ moves ∧
        ∃ document, (FocusMove.documents moves)[id]? = some (some document) ∧
          provider.selector.selects document.path = true) ∧
    (lobby.registrations.length ≤ 1 ∧
      ∀ id language queries, (id, language, queries) ∈ lobby.registrations →
        language = languageId ∧ queries = provider ∧ lobby.activations = [id] ∧
          ∃ first rest before, moves = first ++ .activated id true :: rest ∧
            (initial languageId provider).run? first = some before ∧
            before.activations = [id] ∧ before.registrations = []) ∧
    ((lobby.bridge.state = .registered ↔ lobby.activations ≠ []) ∧
      ∀ later after, lobby.run? later = some after → lobby.bridge.state = .registered →
        after.bridge.state = .registered) ∧
    (∀ id, .activated id false ∈ moves → lobby.registrations = []) := by
  obtain ⟨activation, tells⟩ := tells_initial.run reached
  rw [List.nil_append] at tells
  refine ⟨⟨?_, ?_⟩, ⟨?_, ?_⟩, ⟨?_, ?_⟩, ?_⟩
  · rw [tells.activations_eq]
    cases activation.asker? <;> simp
  · intro id asked
    rw [tells.activations_eq, Option.mem_toList] at asked
    obtain ⟨answered, document, found, focused, rfl, selected⟩ := tells.chosen id asked
    exact ⟨answered, focused, found, selected⟩
  · rw [tells.registrations_eq]
    cases activation with
    | notAsked => simp [Activation.handed]
    | asked id => simp [Activation.handed]
    | ended id answer => cases answer <;> simp [Activation.handed]
  · intro id language queries handed
    rw [tells.registrations_eq] at handed
    obtain ⟨rfl, rfl, rfl⟩ : activation = .ended id true ∧ language = languageId ∧
        queries = provider := by
      cases activation with
      | notAsked => simp [Activation.handed] at handed
      | asked other => simp [Activation.handed] at handed
      | ended other answer => cases answer <;> simp_all [Activation.handed]
    exact ⟨rfl, rfl, tells.activations_eq, asked_of_activated reached ((tells.answers id true).2 rfl)⟩
  · rw [tells.activations_eq, tells.bridge_eq]
    cases activation <;> simp [Activation.state, Activation.asker?]
  · intro later after reached registered
    exact registered_run registered reached
  · intro id failed
    rw [tells.registrations_eq, (tells.answers id false).1 failed]
    rfl

/-- A workflow file gets the focus twice, and the second focus change is answered first. -/
def overtaking : List FocusMove :=
  let document : Document := { path := ".github/workflows/ci.yml", text := "" }
  [.focus (some document), .focus (some document), .installed 1 true, .installed 0 true,
    .focus none, .activated 1 true]

theorem registers_at_most_once_overtaking :
    let provider : CommandProvider := ⟨⟨[.key "run"]⟩, .standard⟩
    ∃ lobby, (initial "workflow" provider).run? overtaking = some lobby ∧
      lobby.activations = [1] ∧ lobby.registrations = [(1, "workflow", provider)] ∧
      lobby.registrations.length ≤ 1 ∧ lobby.bridge.state = .registered := by
  intro provider
  have checked : ((initial "workflow" provider).run? overtaking).any (fun lobby =>
      lobby.registrations = [(1, "workflow", provider)]) = true := by
    decide +kernel
  simp only [Option.any_eq_true, decide_eq_true_eq] at checked
  obtain ⟨lobby, reached, handed⟩ := checked
  obtain ⟨-, ⟨once, from_bridge⟩, ⟨registered_iff, -⟩, -⟩ := registers_at_most_once reached
  obtain ⟨-, -, asked, -⟩ := from_bridge 1 "workflow" provider (by simp [handed])
  exact ⟨lobby, reached, asked, handed, once, registered_iff.2 (by simp [asked])⟩

end Lobby

end WorkflowScope
