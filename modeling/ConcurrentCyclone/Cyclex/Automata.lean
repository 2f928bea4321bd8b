import Mathlib.Data.Fin.Basic

/-!
# Automata of the lexer generator

`tools/cyclex/lexgen.h`: the states of the automaton that `make_dfa` builds and `compact_tables`
packs. A state performs an action, or remembers one and shifts on the next symbol; the symbols are
the 256 characters and the end of the input. State and action numbers index tables, so they are
naturals here.
-/

set_option autoImplicit false

namespace ConcurrentCyclone.Cyclex

/-- A character, or 256 for the end of the input. -/
abbrev Symbol := Fin 257

/-- `datatype Automata_trans`. -/
inductive AutomataTrans where
  | noRemember
  | remember (act : Nat)
  deriving DecidableEq, Repr

/-- `datatype Automata_move`. -/
inductive AutomataMove where
  | backtrack
  | goto (state : Nat)
  deriving DecidableEq, Repr

/-- `datatype Automata`; a shift state has a move for each of the 257 symbols. -/
inductive Automata where
  | perform (act : Nat)
  | shift (trans : AutomataTrans) (move : Symbol → AutomataMove)

end ConcurrentCyclone.Cyclex
