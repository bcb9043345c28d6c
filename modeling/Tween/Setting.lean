import Tween.Description.Reader

namespace Tween

structure Setting (α : Type) where
  /-- What kind of setting it is, as it is shown. -/
  label : String
  name : String
  default : α
  value : α

namespace Setting

variable {α : Type}

def make (label name : String) (default : α) : Setting α :=
  ⟨label, name, default, default⟩

def whole (name : String) (default : Int) : Setting Int :=
  make "IntOption" name default

def plain (name : String) (default : Int) : Setting Int :=
  make "Option" name default

def ofDescription (name : String) (default : Description) : Setting Description :=
  make "DescriptionOption" name default

def ofText (name text : String) : Except Fault (Setting Description) := do
  match ← Description.read? text with
  | some d => return ofDescription name d
  | none => throw (.invalidDefault text name)

instance [Inhabited α] : Inhabited (Setting α) := ⟨make "" "" Inhabited.default⟩

def set (s : Setting α) (value : α) : Setting α :=
  { s with value }

def reset (s : Setting α) : Setting α :=
  { s with value := s.default }

def shown (s : Setting α) (value : String) : String :=
  s.label ++ "(" ++ Text.quoted s.name ++ ", " ++ value ++ ")"

end Setting

end Tween
