import Orm.Value.Basic
import Orm.Text.Cut

/-!
# `Orm.Sql.Fragment` — statement text with its parameters

A fragment is a piece of statement text together with the values of its positional markers, in the
order of the text. Operations make new fragments and keep text and values in step.

## Contents
- **Fragments.** `Fragment`, `Fragment.plain`, `bind`, `isBlank`, `mapText`.
- **Combining.** `append`, `join`, `parenthesized`, `and`.
-/

namespace Orm.Sql

open Text

/-! ## Fragments -/

/-- A piece of statement text and the values of its positional markers. -/
structure Fragment where
  text : String
  params : List Value

namespace Fragment

/-- A text without parameters. -/
def plain (text : String) : Fragment := ⟨text, []⟩

/-- One more value. -/
def bind (f : Fragment) (value : Value) : Fragment :=
  ⟨f.text, f.params ++ [value]⟩

/-- Whether the text holds nothing but blanks. -/
def isBlank (f : Fragment) : Bool :=
  (trim f.text.toList).isEmpty

/-- The fragment with its text changed. -/
def mapText (change : String → String) (f : Fragment) : Fragment :=
  ⟨change f.text, f.params⟩

/-! ## Combining -/

/-- One fragment after another. -/
def append (f g : Fragment) : Fragment :=
  ⟨f.text ++ g.text, f.params ++ g.params⟩

/-- Fragments with a separator between neighbours. -/
def join (separator : String) (fs : List Fragment) : Fragment :=
  ⟨joinWith separator (fs.map text), fs.flatMap params⟩

/-- The fragment in parentheses. -/
def parenthesized (f : Fragment) : Fragment :=
  f.mapText fun text => "(" ++ text ++ ")"

/-- Both conditions, each in parentheses; a blank one is left out. -/
def and (f g : Fragment) : Fragment :=
  if f.isBlank then g
  else if g.isBlank then f
  else join " AND " [f.parenthesized, g.parenthesized]

/-- The values of a join are those of its parts. -/
@[simp]
theorem params_join (separator : String) (fs : List Fragment) :
    (join separator fs).params = fs.flatMap params := rfl

end Fragment

end Orm.Sql
