/-
# Lisplet.Atom -- indivisible data

Symbols, numbers, strings and booleans: the data that a word or a string literal denotes, with their
written form and their equality.  Equality of numbers is numeric, so it is not reflexive on what is not
a number.
-/

import Lisplet.Number
import Lisplet.Text.Quoted

namespace Lisplet

/-- An indivisible datum. -/
inductive Atom where
  | symbol (name : String)
  | number (n : Number)
  | string (content : String)
  | bool (b : Bool)
deriving DecidableEq, Inhabited

namespace Atom

/-- The written form of an atom. -/
def text : Atom → String
  | symbol name => name
  | number n => n.text
  | string content => Text.quoted content
  | bool b => if b then "#t" else "#f"

/-- Equality of atoms: numbers numerically, all else by content. -/
def equals : Atom → Atom → Bool
  | symbol a, symbol b => a == b
  | number a, number b => a.equals b
  | string a, string b => a == b
  | bool a, bool b => a == b
  | _, _ => false

end Atom

end Lisplet
