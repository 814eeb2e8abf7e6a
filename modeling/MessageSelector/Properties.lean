import Std.Data.TreeMap
import MessageSelector.Value

/-!
# Properties

A selector sees a message only through a look-up of values by name. Owned properties are such a
look-up that holds no unknown value: setting a property to unknown removes it.
-/

namespace MessageSelector

/-- A look-up of values by name. A name without a value is a missing property. -/
abbrev PropertySource := String → Option Value

/-- The value of a property, unknown if it is missing. -/
def PropertySource.value (source : PropertySource) (name : String) : Value :=
  (source name).getD .unknown

/-- The properties of a message, ordered by name. -/
structure Properties where
  values : Std.TreeMap String Value := ∅

namespace Properties

def empty : Properties := {}

/-- The properties after setting one of them; an unknown value removes it. -/
def insert (props : Properties) (name : String) (value : Value) : Properties :=
  match value with
  | .unknown => ⟨props.values.erase name⟩
  | value => ⟨props.values.insert name value⟩

/-- The properties after setting one of them to a value that may be absent, which is unknown. -/
def insertOption (props : Properties) (name : String) (value : Option Value) : Properties :=
  props.insert name (value.getD .unknown)

def get? (props : Properties) (name : String) : Option Value :=
  props.values[name]?

def size (props : Properties) : Nat :=
  props.values.size

def isEmpty (props : Properties) : Bool :=
  props.values.isEmpty

/-- The names and values of all properties, ordered by name. -/
def toList (props : Properties) : List (String × Value) :=
  props.values.toList

/-- The properties that are set one after another. -/
def ofList (settings : List (String × Value)) : Properties :=
  settings.foldl (fun props setting => props.insert setting.1 setting.2) empty

/-- The properties as a look-up. -/
def source (props : Properties) : PropertySource :=
  props.get?

instance : BEq Properties where
  beq p q := p.toList == q.toList

end Properties

end MessageSelector
