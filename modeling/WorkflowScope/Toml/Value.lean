/-!
# TOML values

Numbers and times are checked when they are read but kept as they are written: settings are texts
and lists of texts, so nothing is computed with the rest.
-/

namespace WorkflowScope.Toml

inductive Value where
  | string (text : String)
  | boolean (value : Bool)
  | integer (written : String)
  | float (written : String)
  | dateTime (written : String)
  | array (items : List Value)
  | inlineTable (keys : List String)
  deriving Inhabited

def Value.text? : Value → Option String
  | string text => some text
  | _ => none

def Value.texts? : Value → Option (List String)
  | array items => items.mapM Value.text?
  | _ => none

/-- How a table came about. -/
inductive Origin where
  /-- By a header of its own. -/
  | header
  /-- By the header of a table inside it. -/
  | implicit
  /-- By a dotted key. -/
  | dotted
  deriving DecidableEq, Repr, Inhabited

inductive Item where
  | value (value : Value)
  | table (origin : Origin) (entries : List (String × Item))
  /-- An array of tables, the latest in front. -/
  | tables (latest : List (String × Item)) (earlier : Nat)
  deriving Inhabited

abbrev Entries := List (String × Item)

def Entries.get? (entries : Entries) (key : String) : Option Item :=
  (entries.find? (·.1 == key)).map (·.2)

def Entries.set (entries : Entries) (key : String) (item : Item) : Entries :=
  if entries.any (·.1 == key) then
    entries.map fun entry => if entry.1 == key then (key, item) else entry
  else entries ++ [(key, item)]

end WorkflowScope.Toml
