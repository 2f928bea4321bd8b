import Mathlib.Data.List.Basic
import ConcurrentCyclone.Runtime.CInt

/-!
# The buffer of a generated lexer

`lib/lexing.cyc`: a lexer reads its input through a buffer whose last cell is the last character
read. `lex_refill` shifts the buffer to the left by the number of new characters and puts them at
its end; when that would push the current token out, it first doubles the buffer and moves the old
contents to the upper half. Positions in the buffer are turned into positions in the input by
`lex_abs_pos`.

A `Reader` is any read function that delivers a given input, in chunks of whatever size. Between two
refills the engine that `cyclex` prints moves the positions (`EngineOp`). `Filled` says what the
buffer holds; it is kept by the engine's moves and by a refill (`Filled.engine`, `Filled.refill`),
so it holds in every state that a lexer reaches. A string is a list with its terminating zero, and
copying leaves the terminator out.

The positions are `int`s. They wrap around when more characters are read than an `int` can count, or
when a token needs a buffer of `2 ^ 31` characters; a refill that does neither fits (`Lexbuf.Fits`).
-/

set_option autoImplicit false

namespace ConcurrentCyclone.Lib

open ConcurrentCyclone.Runtime (int32 int32_of_range)

/-- `BUFFER_SIZE`. -/
def BUFFER_SIZE : Nat := 8192

/-- `AUX_SIZE`. -/
def AUX_SIZE : Nat := 4096

/-- The conversion of an `int` to `size_t`. -/
def toSize (x : Int) : Nat := (x % 2 ^ 32).toNat

/-- `new_string`. -/
def newString (n : Nat) : List UInt8 := List.replicate n 0

/-- The loop of `zstrncpy` from one array into another. -/
def copyLoop (src : List UInt8) (s d : Nat) : Nat → List UInt8 → List UInt8
  | 0, dest => dest
  | n + 1, dest => copyLoop src (s + 1) (d + 1) n (dest.set d (src.getD s 0))

/-- The loop of `zstrncpy` when both pointers point into one array, which then changes while it is
read. -/
def moveLoop (s d : Nat) : Nat → List UInt8 → List UInt8
  | 0, buf => buf
  | n + 1, buf => moveLoop (s + 1) (d + 1) n (buf.set d (buf.getD s 0))

/-- `zstrncpy(dest + d, src + s, n)`; the terminating zero of neither string is copied. -/
def zstrncpy (dest : List UInt8) (d : Int) (src : List UInt8) (s : Int) (n : Nat) :
    Option (List UInt8) :=
  if 0 ≤ d ∧ d + n < dest.length ∧ 0 ≤ s ∧ s + n < src.length then
    some (copyLoop src s.toNat d.toNat n dest)
  else none

/-- `zstrncpy(buf + d, buf + s, n)`. -/
def zstrncpyWithin (buf : List UInt8) (d s : Int) (n : Nat) : Option (List UInt8) :=
  if 0 ≤ d ∧ d + n < buf.length ∧ 0 ≤ s ∧ s + n < buf.length then
    some (moveLoop s.toNat d.toNat n buf)
  else none

/-- A read function that delivers `input`: called with a buffer and a number `n` of characters, it
puts the next characters of the input at the start of the buffer and returns their number, at most
`n`. With `0` or less it has delivered nothing. -/
structure Reader (input : List UInt8) (σ : Type) where
  readFun : List UInt8 → Nat → σ → Int × List UInt8 × σ
  /-- How much has been delivered in a state. -/
  pos : σ → Nat
  read_le : ∀ aux n st, (readFun aux n st).1 ≤ n
  length_aux : ∀ aux n st, n < aux.length → (readFun aux n st).2.1.length = aux.length
  pos_next : ∀ aux n st, pos (readFun aux n st).2.2 = pos st + (readFun aux n st).1.toNat
  delivers : ∀ aux n st, n < aux.length → ∀ i < (readFun aux n st).1.toNat,
    pos st + i < input.length ∧ (readFun aux n st).2.1[i]? = input[pos st + i]?

/-- `struct lexbuf`, with the state of the read function. -/
structure Lexbuf (σ : Type) where
  refillState : σ
  lexBuffer : List UInt8
  lexBufferLen : Int
  lexAbsPos : Int
  lexStartPos : Int
  lexCurrPos : Int
  lexLastPos : Int
  lexLastAction : Int
  lexEofReached : Bool

variable {σ : Type} {input : List UInt8}

/-- `from_function`. -/
def fromFunction (st : σ) : Lexbuf σ where
  refillState := st
  lexBuffer := newString (BUFFER_SIZE + 1)
  lexBufferLen := BUFFER_SIZE
  lexAbsPos := -BUFFER_SIZE
  lexStartPos := BUFFER_SIZE
  lexCurrPos := BUFFER_SIZE
  lexLastPos := BUFFER_SIZE
  lexLastAction := 0
  lexEofReached := false

namespace Lexbuf

/-- The branch of `lex_refill` that doubles the buffer. -/
def double (lexbuf : Lexbuf σ) : Option (Lexbuf σ) := do
  let oldlen := lexbuf.lexBufferLen
  let newlen := int32 (oldlen * 2)
  let newbuf ←
    zstrncpy (newString (toSize (int32 (newlen + 1)))) oldlen lexbuf.lexBuffer 0 (toSize oldlen)
  return { lexbuf with
    lexBuffer := newbuf
    lexBufferLen := newlen
    lexAbsPos := int32 (lexbuf.lexAbsPos - oldlen)
    lexCurrPos := int32 (lexbuf.lexCurrPos + oldlen)
    lexStartPos := int32 (lexbuf.lexStartPos + oldlen)
    lexLastPos := int32 (lexbuf.lexLastPos + oldlen) }

/-- The first half of `lex_refill`: there must be room for `n` characters before the token. -/
def makeRoom (lexbuf : Lexbuf σ) (n : Int) : Option (Lexbuf σ) :=
  if lexbuf.lexStartPos < n then lexbuf.double else some lexbuf

/-- The end of `lex_refill`: `n` characters of `aux` are appended. -/
def append (lexbuf : Lexbuf σ) (aux : List UInt8) (n : Int) : Option (Lexbuf σ) := do
  let rest := int32 (lexbuf.lexBufferLen - n)
  let buf ← zstrncpyWithin lexbuf.lexBuffer 0 n (toSize rest)
  let buf ← zstrncpy buf rest aux 0 (toSize n)
  return { lexbuf with
    lexBuffer := buf
    lexAbsPos := int32 (lexbuf.lexAbsPos + n)
    lexCurrPos := int32 (lexbuf.lexCurrPos - n)
    lexStartPos := int32 (lexbuf.lexStartPos - n)
    lexLastPos := int32 (lexbuf.lexLastPos - n) }

/-- The auxiliary buffer is allocated by the first call. -/
def auxBuffer (aux : List UInt8) : List UInt8 :=
  if aux.length = 1 then newString (AUX_SIZE + 1) else aux

/-- `lex_refill`. -/
def lexRefill (R : Reader input σ) (aux : List UInt8) (lexbuf : Lexbuf σ) :
    Option (List UInt8 × Lexbuf σ) := do
  let aux := auxBuffer aux
  let r := R.readFun aux (aux.length - 1) lexbuf.refillState
  let read := r.1
  let lexbuf := { lexbuf with
    refillState := r.2.2
    lexEofReached := if read > 0 then lexbuf.lexEofReached else true }
  let n := if read > 0 then read else 0
  let lexbuf ← lexbuf.makeRoom n
  let lexbuf ← lexbuf.append r.2.1 n
  return (r.2.1, lexbuf)

/-- `lexeme`, that is `rlexeme` for the heap. -/
def lexeme (lbuf : Lexbuf σ) : Option (List UInt8) := do
  let len := int32 (lbuf.lexCurrPos - lbuf.lexStartPos)
  let s ←
    zstrncpy (newString (toSize (int32 (len + 1)))) 0 lbuf.lexBuffer lbuf.lexStartPos (toSize len)
  return s.set len.toNat 0

/-- `lexeme_start`. -/
def lexemeStart (lbuf : Lexbuf σ) : Int := int32 (lbuf.lexAbsPos + lbuf.lexStartPos)

/-- `lexeme_end`. -/
def lexemeEnd (lbuf : Lexbuf σ) : Int := int32 (lbuf.lexAbsPos + lbuf.lexCurrPos)

/-- The next refill stays within the range of `int`: a buffer that is doubled has fewer than
`2 ^ 30` characters, and the position of the buffer does not wrap around. -/
def Fits (R : Reader input σ) (aux : List UInt8) (lexbuf : Lexbuf σ) : Prop :=
  let n := (R.readFun (auxBuffer aux) AUX_SIZE lexbuf.refillState).1
  (lexbuf.lexStartPos < n → lexbuf.lexBufferLen < 2 ^ 30) ∧
    (n ≤ lexbuf.lexStartPos → lexbuf.lexAbsPos + n < 2 ^ 31)

end Lexbuf

/-- What `lex_engine` does to the buffer between two refills: it starts a token, passes a state with
an action, reads a character, consumes the end of the input, and goes back to the last action. The
actions of the lexer give a character back. -/
inductive EngineOp where
  | begin
  | remember (action : Int)
  | next
  | consumeEof
  | backtrack
  | unread

/-- One of these operations; a character is read only below `lex_buffer_len`. -/
def EngineOp.run (lbuf : Lexbuf σ) : EngineOp → Option (Lexbuf σ)
  | .begin => some { lbuf with
      lexStartPos := lbuf.lexCurrPos, lexLastPos := lbuf.lexCurrPos, lexLastAction := -1 }
  | .remember action => some { lbuf with
      lexLastPos := lbuf.lexCurrPos, lexLastAction := action }
  | .next =>
    if lbuf.lexCurrPos ≥ lbuf.lexBufferLen then none
    else some { lbuf with lexCurrPos := int32 (lbuf.lexCurrPos + 1) }
  | .consumeEof => some { lbuf with lexEofReached := false }
  | .backtrack => some { lbuf with lexCurrPos := lbuf.lexLastPos }
  | .unread =>
    if lbuf.lexStartPos < lbuf.lexCurrPos then
      some { lbuf with lexCurrPos := int32 (lbuf.lexCurrPos - 1) }
    else none

/-- The states a lexer reaches from a new buffer by refills that fit. The auxiliary buffer is shared
by all lexers, so each refill finds it as some lexer left it. -/
inductive Reached (R : Reader input σ) : Lexbuf σ → Prop
  | init (st : σ) : R.pos st = 0 → Reached R (fromFunction st)
  | engine {lbuf lbuf' : Lexbuf σ} (op : EngineOp) :
      Reached R lbuf → op.run lbuf = some lbuf' → Reached R lbuf'
  | refill {lbuf lbuf' : Lexbuf σ} {aux aux' : List UInt8} :
      Reached R lbuf → aux.length = 1 ∨ aux.length = AUX_SIZE + 1 → lbuf.Fits R aux →
        lbuf.lexRefill R aux = some (aux', lbuf') → Reached R lbuf'

/-! ### Copying -/

@[simp]
theorem length_copyLoop (src : List UInt8) (s d n : Nat) (dest : List UInt8) :
    (copyLoop src s d n dest).length = dest.length := by
  induction n generalizing s d dest with
  | zero => rfl
  | succ n ih => rw [copyLoop, ih, List.length_set]

theorem toSize_natCast {n : Nat} (h : (n : Int) < 2 ^ 32) : toSize n = n := by
  rw [toSize]
  omega

variable {d s n : Nat} {src : List UInt8}

theorem getElem?_set_getD {l : List UInt8}
    (hd : d < l.length) (hs : s < src.length) : (l.set d (src.getD s 0))[d]? = src[s]? := by
  rw [List.getElem?_set_self hd, List.getD_eq_getElem?_getD, List.getElem?_eq_getElem hs]
  rfl

/-- What is copied, and that the rest of the array stays. -/
theorem getElem?_copyLoop {dest : List UInt8}
    (hd : d + n ≤ dest.length) (hs : s + n ≤ src.length) (p : Nat) : (copyLoop src s d n dest)[p]? =
      if d ≤ p ∧ p < d + n then src[s + (p - d)]? else dest[p]? := by
  induction n generalizing s d dest with
  | zero => rw [copyLoop, if_neg (by omega)]
  | succ n ih =>
    rw [copyLoop, ih (by rw [List.length_set]; omega) (by omega)]
    by_cases hp : p = d
    · subst hp
      rw [if_neg (by omega), if_pos (by omega), Nat.sub_self,
        getElem?_set_getD (by omega) (by omega)]
      rfl
    · rw [List.getElem?_set_ne (Ne.symm hp)]
      by_cases hin : d ≤ p ∧ p < d + (n + 1)
      · rw [if_pos hin, if_pos (by omega)]
        congr 1
        omega
      · rw [if_neg hin, if_neg (by omega)]

/-- Moving to the left within an array reads each cell before it is overwritten. -/
theorem moveLoop_eq {buf : List UInt8} (hsd : d ≤ s)
    (hsrc : ∀ p, s ≤ p → buf[p]? = src[p]?) : moveLoop s d n buf = copyLoop src s d n buf := by
  induction n generalizing s d buf with
  | zero => rfl
  | succ n ih =>
    have hget : buf.getD s 0 = src.getD s 0 := by
      rw [List.getD_eq_getElem?_getD, List.getD_eq_getElem?_getD, hsrc s (Nat.le_refl s)]
    rw [moveLoop, hget]
    apply ih (by omega)
    intro p hp
    rw [List.getElem?_set_ne (by omega)]
    exact hsrc p (by omega)

/-! ### What the buffer holds -/

/-- From the start of the token on, the buffer holds the input at the absolute positions. -/
def Lexbuf.Shows (input : List UInt8) (lexbuf : Lexbuf σ) : Prop :=
  ∀ p : Nat, lexbuf.lexStartPos ≤ p → p < lexbuf.lexBufferLen →
    ∃ q : Nat, (q : Int) = lexbuf.lexAbsPos + p ∧ q < input.length ∧
      lexbuf.lexBuffer[p]? = input[q]?

/-- The buffer ends with the last of the `pos` characters that were read, and the positions lie
within it. -/
structure Filled (input : List UInt8) (pos : Nat) (lexbuf : Lexbuf σ) : Prop where
  size : BUFFER_SIZE ≤ lexbuf.lexBufferLen
  length : lexbuf.lexBuffer.length = lexbuf.lexBufferLen + 1
  start_nonneg : 0 ≤ lexbuf.lexStartPos
  start_curr : lexbuf.lexStartPos ≤ lexbuf.lexCurrPos
  curr_le : lexbuf.lexCurrPos ≤ lexbuf.lexBufferLen
  start_last : lexbuf.lexStartPos ≤ lexbuf.lexLastPos
  last_le : lexbuf.lexLastPos ≤ lexbuf.lexBufferLen
  len_lt : lexbuf.lexBufferLen + 1 < 2 ^ 31
  abs_lt : lexbuf.lexAbsPos < 2 ^ 31
  read : lexbuf.lexAbsPos + lexbuf.lexBufferLen = pos
  shows : lexbuf.Shows input

/-- Absolute positions of the token's start, of the current character and of the last action. -/
def Lexbuf.absolute (lexbuf : Lexbuf σ) : Int × Int × Int :=
  (lexbuf.lexAbsPos + lexbuf.lexStartPos, lexbuf.lexAbsPos + lexbuf.lexCurrPos,
    lexbuf.lexAbsPos + lexbuf.lexLastPos)

variable {R : Reader input σ} {pos : Nat} {lexbuf lexbuf' : Lexbuf σ}

theorem filled_fromFunction (input : List UInt8) (st : σ) : Filled input 0 (fromFunction st) where
  size := Int.le_refl _
  length := by simp [fromFunction, newString]
  start_nonneg := Int.natCast_nonneg _
  start_curr := Int.le_refl _
  curr_le := Int.le_refl _
  start_last := Int.le_refl _
  last_le := Int.le_refl _
  len_lt := by
    simp only [fromFunction]
    decide
  abs_lt := by
    simp only [fromFunction]
    decide
  read := Int.add_left_neg _
  shows := by
    intro p hp hlt
    exact absurd hlt (Int.not_lt.2 hp)

section

variable (h : Filled input pos lexbuf)

include h

theorem Filled.withState (st : σ) (eof : Bool) :
    Filled input pos { lexbuf with refillState := st, lexEofReached := eof } :=
  { h with }

theorem Filled.engine {op : EngineOp}
    (hop : op.run lexbuf = some lexbuf') :
    Filled input pos lexbuf' ∧ lexbuf'.refillState = lexbuf.refillState := by
  cases op with
  | begin =>
    cases hop
    refine ⟨⟨h.size, h.length, Int.le_trans h.start_nonneg h.start_curr, Int.le_refl _, h.curr_le,
      Int.le_refl _, h.curr_le, h.len_lt, h.abs_lt, h.read, ?_⟩, rfl⟩
    intro p hp hlt
    exact h.shows p (Int.le_trans h.start_curr hp) hlt
  | remember action =>
    cases hop
    exact ⟨{ h with start_last := h.start_curr, last_le := h.curr_le }, rfl⟩
  | next =>
    simp only [EngineOp.run] at hop
    split_ifs at hop with hlt
    obtain ⟨-, -, hnonneg, hcurr, -, -, -, hlen, -⟩ := id h
    rw [int32_of_range (by omega) (by omega)] at hop
    cases hop
    have hcurr := Int.le_trans h.start_curr (Int.le_add_one (Int.le_refl _))
    have hle := Int.add_one_le_of_lt (Int.not_le.1 hlt)
    exact ⟨{ h with start_curr := hcurr, curr_le := hle }, rfl⟩
  | consumeEof =>
    cases hop
    exact ⟨{ h with }, rfl⟩
  | backtrack =>
    cases hop
    exact ⟨{ h with start_curr := h.start_last, curr_le := h.last_le }, rfl⟩
  | unread =>
    simp only [EngineOp.run] at hop
    split_ifs at hop with hlt
    obtain ⟨-, -, hnonneg, hcurr, hle, -, -, hlen, -⟩ := id h
    rw [int32_of_range (by omega) (by omega)] at hop
    cases hop
    exact ⟨{ h with start_curr := Int.le_sub_one_of_lt hlt, curr_le := by simp only; omega }, rfl⟩

/-- Doubling the buffer keeps what it holds, with room before the token. -/
theorem Filled.double (hsmall : lexbuf.lexBufferLen < 2 ^ 30) :
    ∃ lexbuf', lexbuf.double = some lexbuf' ∧ Filled input pos lexbuf' ∧
      lexbuf'.lexAbsPos + BUFFER_SIZE < 2 ^ 31 ∧ BUFFER_SIZE ≤ lexbuf'.lexStartPos ∧
      lexbuf'.absolute = lexbuf.absolute ∧ lexbuf'.refillState = lexbuf.refillState := by
  obtain ⟨st, buf, len, abs, start, curr, last, action, eof⟩ := lexbuf
  obtain ⟨hsize, hlength, hnonneg, hcurr, hcurrle, hlast, hlastle, -, habs, hread, hshows⟩ := h
  simp only at hsize hlength hnonneg hcurr hcurrle hlast hlastle habs hread hsmall
  have hbuffer : BUFFER_SIZE = 8192 := rfl
  obtain ⟨n, rfl⟩ : ∃ n : Nat, len = n := ⟨len.toNat, by omega⟩
  have hlen : toSize n = n := toSize_natCast (by omega)
  have hnewlen : int32 ((n : Int) * 2) = n * 2 := int32_of_range (by omega) (by omega)
  have hnewsize : toSize (int32 ((n : Int) * 2 + 1)) = n * 2 + 1 := by
    rw [int32_of_range (by omega) (by omega)]
    exact toSize_natCast (n := n * 2 + 1) (by omega)
  have hnew : (newString (n * 2 + 1)).length = n * 2 + 1 := List.length_replicate
  have hcopy : zstrncpy (newString (n * 2 + 1)) n buf 0 n =
      some (copyLoop buf 0 n n (newString (n * 2 + 1))) := by
    rw [zstrncpy, if_pos (by omega)]
    rfl
  refine ⟨⟨st, copyLoop buf 0 n n (newString (n * 2 + 1)), (n : Int) * 2, abs - n, start + n,
    curr + n, last + n, action, eof⟩, ?_, ?_, ?_, ?_, ?_, rfl⟩
  · simp only [Lexbuf.double, hlen, hnewlen, hnewsize, hcopy,
      int32_of_range (x := abs - n) (by omega) (by omega),
      int32_of_range (x := start + n) (by omega) (by omega),
      int32_of_range (x := curr + n) (by omega) (by omega),
      int32_of_range (x := last + n) (by omega) (by omega)]
    rfl
  · constructor
    case length =>
      simp only [length_copyLoop]
      omega
    case shows =>
      intro p hp hlt
      simp only at hp hlt ⊢
      obtain ⟨q, hq, hqlt, hget⟩ := hshows (p - n) (by simp only; omega) (by simp only; omega)
      refine ⟨q, by simp only at hq; omega, hqlt, ?_⟩
      rw [getElem?_copyLoop (by omega) (by omega), if_pos (by omega), Nat.zero_add]
      exact hget
    all_goals
      simp only
      omega
  · simp only
    omega
  · simp only
    omega
  · simp only [Lexbuf.absolute, Prod.mk.injEq]
    omega

/-- Appending the `n` characters that follow those in the buffer. -/
theorem Filled.append {aux : List UInt8}
    (hn : n ≤ lexbuf.lexStartPos) (habs : lexbuf.lexAbsPos + n < 2 ^ 31) (haux : n < aux.length)
    (hdata : ∀ i < n, pos + i < input.length ∧ aux[i]? = input[pos + i]?) :
    ∃ lexbuf', lexbuf.append aux n = some lexbuf' ∧ Filled input (pos + n) lexbuf' ∧
      lexbuf'.absolute = lexbuf.absolute ∧ lexbuf'.refillState = lexbuf.refillState := by
  obtain ⟨st, buf, len, abs, start, curr, last, action, eof⟩ := lexbuf
  obtain ⟨hsize, hlength, hnonneg, hcurr, hcurrle, hlast, hlastle, hlen, -, hread, hshows⟩ := h
  simp only at hsize hlength hnonneg hcurr hcurrle hlast hlastle hlen hread hn habs
  obtain ⟨k, rfl⟩ : ∃ k : Nat, len = n + k := ⟨(len - n).toNat, by omega⟩
  have hrest : int32 ((n : Int) + k - n) = k := by
    rw [show (n : Int) + k - n = k by omega]
    exact int32_of_range (by omega) (by omega)
  have hmove : zstrncpyWithin buf 0 n k = some (copyLoop buf n 0 k buf) := by
    rw [zstrncpyWithin, if_pos (by omega), Int.toNat_natCast]
    exact congrArg some (moveLoop_eq (Nat.zero_le n) fun _ _ => rfl)
  have hcopy : zstrncpy (copyLoop buf n 0 k buf) k aux 0 n =
      some (copyLoop aux 0 k n (copyLoop buf n 0 k buf)) := by
    rw [zstrncpy, if_pos (by rw [length_copyLoop]; omega), Int.toNat_natCast]
    rfl
  refine ⟨⟨st, copyLoop aux 0 k n (copyLoop buf n 0 k buf), n + k, abs + n, start - n, curr - n,
    last - n, action, eof⟩, ?_, ?_, ?_, rfl⟩
  · simp only [Lexbuf.append, hrest, toSize_natCast (n := k) (by omega), hmove,
      toSize_natCast (n := n) (by omega), hcopy, Option.bind_eq_bind, Option.bind_some,
      int32_of_range (x := abs + n) (by omega) habs,
      int32_of_range (x := start - n) (by omega) (by omega),
      int32_of_range (x := curr - n) (by omega) (by omega),
      int32_of_range (x := last - n) (by omega) (by omega)]
    rfl
  · constructor
    case length =>
      simp only [length_copyLoop]
      exact hlength
    case shows =>
      intro p hp hlt
      simp only at hp hlt ⊢
      rw [getElem?_copyLoop (by rw [length_copyLoop]; omega) (by omega)]
      by_cases hpk : k ≤ p
      · -- a character that was just read
        obtain ⟨hlt', hget⟩ := hdata (p - k) (by omega)
        refine ⟨pos + (p - k), by omega, hlt', ?_⟩
        rw [if_pos (by omega), Nat.zero_add]
        exact hget
      · -- a character that was in the buffer
        obtain ⟨q, hq, hqlt, hget⟩ := hshows (n + p) (by simp only; omega) (by simp only; omega)
        simp only at hq hget
        refine ⟨q, by omega, hqlt, ?_⟩
        rw [if_neg (by omega), getElem?_copyLoop (by omega) (by omega), if_pos (by omega)]
        exact hget
    all_goals
      simp only
      omega
  · simp only [Lexbuf.absolute, Prod.mk.injEq]
    omega

theorem Filled.makeRoom (hn : n ≤ AUX_SIZE)
    (hsmall : lexbuf.lexStartPos < n → lexbuf.lexBufferLen < 2 ^ 30)
    (habs : n ≤ lexbuf.lexStartPos → lexbuf.lexAbsPos + n < 2 ^ 31) :
    ∃ lexbuf', lexbuf.makeRoom n = some lexbuf' ∧ Filled input pos lexbuf' ∧
      n ≤ lexbuf'.lexStartPos ∧ lexbuf'.lexAbsPos + n < 2 ^ 31 ∧
      lexbuf'.absolute = lexbuf.absolute ∧ lexbuf'.refillState = lexbuf.refillState := by
  rw [Lexbuf.makeRoom]
  split_ifs with hlt
  · obtain ⟨lexbuf', hdouble, hfilled, hpos, hstart, habs, hst⟩ := h.double (hsmall hlt)
    have hsizes : AUX_SIZE ≤ BUFFER_SIZE := by decide
    exact ⟨lexbuf', hdouble, hfilled, by omega, by omega, habs, hst⟩
  · have hle := Int.not_lt.1 hlt
    exact ⟨lexbuf, rfl, h, hle, habs hle, rfl, rfl⟩

end

/-- A refill succeeds, and keeps the absolute positions. -/
theorem Filled.refill {aux : List UInt8} (h : Filled input (R.pos lexbuf.refillState) lexbuf)
    (haux : aux.length = 1 ∨ aux.length = AUX_SIZE + 1) (hfits : lexbuf.Fits R aux) :
    ∃ aux' lexbuf', lexbuf.lexRefill R aux = some (aux', lexbuf') ∧
      Filled input (R.pos lexbuf'.refillState) lexbuf' ∧
      lexbuf'.absolute = lexbuf.absolute := by
  obtain ⟨hsmall, habs⟩ := hfits
  obtain ⟨buf, hbuf⟩ : ∃ buf, Lexbuf.auxBuffer aux = buf := ⟨_, rfl⟩
  rw [hbuf] at hsmall habs
  have hlen : buf.length = AUX_SIZE + 1 := by
    rw [← hbuf, Lexbuf.auxBuffer]
    split_ifs with h1
    · exact List.length_replicate
    · exact haux.resolve_left h1
  obtain ⟨r, hr⟩ : ∃ r, R.readFun buf AUX_SIZE lexbuf.refillState = r := ⟨_, rfl⟩
  have hle := R.read_le buf AUX_SIZE lexbuf.refillState
  have hauxlen := R.length_aux buf AUX_SIZE lexbuf.refillState (by omega)
  have hnext := R.pos_next buf AUX_SIZE lexbuf.refillState
  have hdata := R.delivers buf AUX_SIZE lexbuf.refillState (by omega)
  rw [hr] at hle hauxlen hnext hdata hsmall habs
  have hn : (if r.1 > 0 then r.1 else 0) = (r.1.toNat : Int) := by split_ifs <;> omega
  have hstate := h.withState r.2.2 (if r.1 > 0 then lexbuf.lexEofReached else true)
  have hnonneg := h.start_nonneg
  have hbound := h.abs_lt
  obtain ⟨roomy, hroomy, hfilled, hstart, hpos, heq, hst⟩ := hstate.makeRoom (n := r.1.toNat)
    (by omega) (fun hlt => hsmall (by simp only at hlt; omega))
    (fun hle => by simp only at hle ⊢; omega)
  obtain ⟨lexbuf', happend, hfilled', heq', hst'⟩ := hfilled.append hstart hpos (by omega) hdata
  refine ⟨r.2.1, lexbuf', ?_, ?_, heq'.trans heq⟩
  · simp only [Lexbuf.lexRefill, hbuf, hlen, Nat.add_sub_cancel, hr, hn, hroomy, happend,
      Option.bind_eq_bind, Option.bind_some]
    rfl
  · rw [hst', hst, hnext]
    exact hfilled'

/-- In every state that a lexer reaches, the buffer is filled with what was read. -/
theorem Reached.filled (h : Reached R lexbuf) : Filled input (R.pos lexbuf.refillState) lexbuf := by
  induction h with
  | init st hpos => exact hpos ▸ filled_fromFunction input st
  | engine op _ hop ih =>
    obtain ⟨hfilled, hst⟩ := ih.engine hop
    exact hst ▸ hfilled
  | refill _ haux hfits hrefill ih =>
    obtain ⟨_, _, heq, hfilled, _⟩ := ih.refill haux hfits
    rw [hrefill] at heq
    cases heq
    exact hfilled

/-- A refill that fits succeeds, whenever the lexer asks for it. The buffer then holds the input
from the start of the token on, and the absolute positions are those from before. -/
theorem lexRefill_shows {aux : List UInt8} (hreached : Reached R lexbuf)
    (haux : aux.length = 1 ∨ aux.length = AUX_SIZE + 1) (hfits : lexbuf.Fits R aux) :
    ∃ aux' lexbuf', lexbuf.lexRefill R aux = some (aux', lexbuf') ∧ lexbuf'.Shows input ∧
      lexbuf'.absolute = lexbuf.absolute := by
  obtain ⟨aux', lexbuf', hrefill, hfilled, habs⟩ := hreached.filled.refill haux hfits
  exact ⟨aux', lexbuf', hrefill, hfilled.shows, habs⟩

/-- In every state that a lexer reaches, `lexeme` returns the input from `lexeme_start` up to
`lexeme_end`, with a zero at the end, if an `int` can have the position of the end. -/
theorem lexeme_shows (hreached : Reached R lexbuf)
    (hend : lexbuf.lexAbsPos + lexbuf.lexCurrPos < 2 ^ 31) :
    ∃ (n : Nat) (s : List UInt8), lexbuf.lexemeStart + n = lexbuf.lexemeEnd ∧
      lexbuf.lexeme = some s ∧ s.length = n + 1 ∧ s[n]? = some 0 ∧
      ∀ p < n, ∃ q : Nat, q = lexbuf.lexemeStart + p ∧ q < input.length ∧ s[p]? = input[q]? := by
  obtain ⟨-, hlength, hnonneg, hcurr, hcurrle, -, -, hlen, -, hread, hshows⟩ := hreached.filled
  obtain ⟨a, ha⟩ := Int.eq_ofNat_of_zero_le hnonneg
  obtain ⟨n, hn⟩ := Int.le.dest hcurr
  have hstart : lexbuf.lexemeStart = lexbuf.lexAbsPos + lexbuf.lexStartPos :=
    int32_of_range (by omega) (by omega)
  have hstop : lexbuf.lexemeEnd = lexbuf.lexAbsPos + lexbuf.lexCurrPos :=
    int32_of_range (by omega) hend
  have hnew : ∀ k, (newString k).length = k := fun _ => List.length_replicate
  have hsize : int32 (lexbuf.lexCurrPos - lexbuf.lexStartPos) = n := by
    rw [show lexbuf.lexCurrPos - lexbuf.lexStartPos = n by omega]
    exact int32_of_range (by omega) (by omega)
  have hnewsize : toSize (int32 ((n : Int) + 1)) = n + 1 := by
    rw [int32_of_range (by omega) (by omega)]
    exact toSize_natCast (n := n + 1) (by omega)
  have hcopy : lexbuf.lexeme =
      some ((copyLoop lexbuf.lexBuffer a 0 n (newString (n + 1))).set n 0) := by
    simp only [Lexbuf.lexeme, hsize, hnewsize, toSize_natCast (n := n) (by omega)]
    rw [ha, zstrncpy, if_pos (by rw [hnew]; omega)]
    rfl
  refine ⟨n, _, by omega, hcopy, by simp [hnew], List.getElem?_set_self (by simp [hnew]), ?_⟩
  intro p hp
  obtain ⟨q, hq, hlt, hget⟩ := hshows (a + p) (by omega) (by omega)
  refine ⟨q, by omega, hlt, ?_⟩
  rw [List.getElem?_set_ne (by omega), getElem?_copyLoop (by rw [hnew]; omega) (by omega),
    if_pos (by omega)]
  exact hget

/-! ### Reading one character at a time -/

/-- A function that delivers one character at a time. -/
def readOne (input : List UInt8) : Reader input Nat where
  readFun aux n pos :=
    match input[pos]? with
    | some c => if 0 < n then (1, aux.set 0 c, pos + 1) else (0, aux, pos)
    | none => (0, aux, pos)
  pos := id
  read_le aux n pos := by
    cases input[pos]? with
    | none => exact Int.natCast_nonneg n
    | some c =>
      simp only
      split_ifs <;> simp only <;> omega
  length_aux aux n pos h := by
    cases input[pos]? with
    | none => rfl
    | some c =>
      simp only
      split_ifs
      · exact List.length_set
      · rfl
  pos_next aux n pos := by
    cases input[pos]? with
    | none => rfl
    | some c =>
      simp only
      split_ifs <;> rfl
  delivers aux n pos h i hi := by
    cases hget : input[pos]? with
    | none =>
      rw [hget] at hi
      exact absurd hi (Nat.not_lt_zero i)
    | some c =>
      rw [hget] at hi
      simp only at hi ⊢
      split_ifs at hi ⊢ with hn
      · obtain rfl : i = 0 := Nat.lt_one_iff.1 hi
        refine ⟨(List.getElem?_eq_some_iff.1 hget).1, ?_⟩
        rw [List.getElem?_set_self (by omega)]
        exact hget.symm
      · exact absurd hi (Nat.not_lt_zero i)

theorem readOne_readFun {k : Nat} (hn : 0 < n) (hk : k < input.length) (aux : List UInt8) :
    ∃ aux', (readOne input).readFun aux n k = (1, aux', k + 1) := by
  simp only [readOne, List.getElem?_eq_getElem hk, if_pos hn]
  exact ⟨_, rfl⟩

/-- The positions after a refill with one character. -/
theorem lexRefill_one {lexbuf lexbuf' : Lexbuf Nat} {aux' : List UInt8}
    (hk : lexbuf.refillState < input.length) (hstart : 1 ≤ lexbuf.lexStartPos)
    (hrefill : lexbuf.lexRefill (readOne input) [0] = some (aux', lexbuf')) :
    lexbuf'.refillState = lexbuf.refillState + 1 ∧
      lexbuf'.lexBufferLen = lexbuf.lexBufferLen ∧
      lexbuf'.lexAbsPos = int32 (lexbuf.lexAbsPos + 1) ∧
      lexbuf'.lexStartPos = int32 (lexbuf.lexStartPos - 1) ∧
      lexbuf'.lexCurrPos = int32 (lexbuf.lexCurrPos - 1) := by
  obtain ⟨aux₁, hread⟩ := readOne_readFun (n := AUX_SIZE) (by decide) hk (newString (AUX_SIZE + 1))
  have haux : Lexbuf.auxBuffer [0] = newString (AUX_SIZE + 1) := rfl
  have hlen : (newString (AUX_SIZE + 1)).length - 1 = AUX_SIZE := by simp [newString]
  simp only [Lexbuf.lexRefill, haux, hlen, hread, gt_iff_lt, Int.zero_lt_one, if_true,
    Lexbuf.makeRoom, if_neg (Int.not_lt.2 hstart), Option.bind_eq_bind, Option.bind_some,
    Lexbuf.append, Option.bind_eq_some_iff] at hrefill
  obtain ⟨_, ⟨_, -, _, -, heq⟩, heq'⟩ := hrefill
  cases heq
  cases heq'
  exact ⟨rfl, rfl, rfl, rfl, rfl⟩

theorem fits_one {lexbuf : Lexbuf Nat} (hk : lexbuf.refillState < input.length)
    (hstart : 1 ≤ lexbuf.lexStartPos) (habs : lexbuf.lexAbsPos + 1 < 2 ^ 31) :
    lexbuf.Fits (readOne input) [0] := by
  obtain ⟨aux₁, hread⟩ :=
    readOne_readFun (n := AUX_SIZE) (by decide) hk (Lexbuf.auxBuffer [0])
  simp only [Lexbuf.Fits, hread]
  exact ⟨fun hlt => absurd hlt (Int.not_lt.2 hstart), fun _ => habs⟩

/-- A lexer whose tokens are the single characters, after `k` of them. -/
theorem reached_singles (input : List UInt8) {k : Nat} (hk : k ≤ input.length)
    (hsmall : k < 2 ^ 31 + BUFFER_SIZE) :
    ∃ lexbuf, Reached (readOne input) lexbuf ∧ lexbuf.refillState = k ∧
      lexbuf.lexBufferLen = BUFFER_SIZE ∧ lexbuf.lexStartPos = BUFFER_SIZE ∧
      lexbuf.lexCurrPos = BUFFER_SIZE := by
  have hbuffer : BUFFER_SIZE = 8192 := rfl
  induction k with
  | zero => exact ⟨fromFunction 0, .init 0 rfl, rfl, rfl, rfl, rfl⟩
  | succ k ih =>
    obtain ⟨lexbuf, hreached, hst, hlen, hstart, hcurr⟩ := ih (by omega) (by omega)
    have hread : lexbuf.lexAbsPos + lexbuf.lexBufferLen = lexbuf.refillState := hreached.filled.read
    have hfits : lexbuf.Fits (readOne input) [0] := fits_one (by omega) (by omega) (by omega)
    obtain ⟨aux', lexbuf', hrefill, -, -⟩ := hreached.filled.refill (.inl rfl) hfits
    obtain ⟨hst', hlen', -, -, hcurr'⟩ := lexRefill_one (by omega) (by omega) hrefill
    rw [int32_of_range (by omega) (by omega)] at hcurr'
    have hnext : EngineOp.next.run lexbuf' =
        some { lexbuf' with lexCurrPos := int32 (lexbuf'.lexCurrPos + 1) } := if_neg (by omega)
    rw [int32_of_range (by omega) (by omega)] at hnext
    refine ⟨_, .engine .begin (.engine .next (.refill hreached (.inl rfl) hfits hrefill) hnext) rfl,
      hst'.trans (by rw [hst]), hlen'.trans hlen, ?_, ?_⟩
    · simp only
      omega
    · simp only
      omega

/-- After `2 ^ 31 + 8191` characters the position of the buffer wraps around. -/
theorem not_lexRefill_shows :
    ¬ ∀ (input : List UInt8) (R : Reader input Nat) (lexbuf : Lexbuf Nat) (aux : List UInt8),
      Reached R lexbuf → aux.length = 1 ∨ aux.length = AUX_SIZE + 1 →
        ∃ aux' lexbuf', lexbuf.lexRefill R aux = some (aux', lexbuf') ∧ lexbuf'.Shows input ∧
          lexbuf'.absolute = lexbuf.absolute := by
  intro hshows
  have hbuffer : BUFFER_SIZE = 8192 := rfl
  obtain ⟨k, hk⟩ : ∃ k, k = 2 ^ 31 + 8191 := ⟨_, rfl⟩
  obtain ⟨input, hinput⟩ : ∃ input : List UInt8, input.length = k + 1 :=
    ⟨List.replicate (k + 1) 0, List.length_replicate⟩
  obtain ⟨lexbuf, hreached, hst, hlen, hstart, hcurr⟩ :=
    reached_singles input (k := k) (by omega) (by omega)
  have hread : lexbuf.lexAbsPos + lexbuf.lexBufferLen = lexbuf.refillState := hreached.filled.read
  obtain ⟨aux', lexbuf', hrefill, hshows', -⟩ := hshows input _ lexbuf [0] hreached (.inl rfl)
  obtain ⟨-, hlen', habs', hstart', -⟩ := lexRefill_one (by omega) (by omega) hrefill
  rw [int32_of_range (by omega) (by omega)] at hstart'
  have habs : lexbuf.lexAbsPos + 1 = 2147483648 := by omega
  rw [habs] at habs'
  obtain ⟨q, hq, -⟩ := hshows' 8191 (by omega) (by omega)
  have hwrap : int32 2147483648 = -2147483648 := by decide
  omega

/-- The lexer has read the first of the two characters of `hi`. -/
theorem reached_first :
    ∃ aux₁ lexbuf₁ lexbuf₂,
      (fromFunction 0).lexRefill (readOne [104, 105]) [0] = some (aux₁, lexbuf₁) ∧
      EngineOp.next.run lexbuf₁ = some lexbuf₂ ∧ Reached (readOne [104, 105]) lexbuf₂ ∧
      lexbuf₂.refillState = 1 ∧ lexbuf₂.lexBufferLen = 8192 ∧ lexbuf₂.lexAbsPos = -8191 ∧
      lexbuf₂.lexStartPos = 8191 ∧ lexbuf₂.lexCurrPos = 8192 := by
  have hreached : Reached (readOne [104, 105]) (fromFunction 0) := .init 0 rfl
  have hfits : (fromFunction 0).Fits (readOne [104, 105]) [0] :=
    fits_one (by decide) (by decide) (by decide)
  obtain ⟨aux₁, lexbuf₁, hrefill, -, -⟩ := hreached.filled.refill (.inl rfl) hfits
  obtain ⟨hst, hlen, habs, hstart, hcurr⟩ := lexRefill_one (by decide) (by decide) hrefill
  have hnext : EngineOp.next.run lexbuf₁ =
      some { lexbuf₁ with lexCurrPos := int32 (lexbuf₁.lexCurrPos + 1) } := by
    rw [EngineOp.run, hlen, hcurr]
    rfl
  refine ⟨aux₁, lexbuf₁, _, hrefill, hnext,
    .engine .next (.refill hreached (.inl rfl) hfits hrefill) hnext, hst, hlen, habs, hstart, ?_⟩
  rw [hcurr]
  rfl

/-- The second refill finds the token in the buffer. -/
theorem lexRefill_shows_second :
    ∃ aux₁ lexbuf₁ lexbuf₂ aux₃ lexbuf₃,
      (fromFunction 0).lexRefill (readOne [104, 105]) [0] = some (aux₁, lexbuf₁) ∧
      EngineOp.next.run lexbuf₁ = some lexbuf₂ ∧
      lexbuf₂.lexRefill (readOne [104, 105]) [0] = some (aux₃, lexbuf₃) ∧
      lexbuf₃.lexBufferLen = 8192 ∧ lexbuf₃.lexStartPos = 8190 ∧ lexbuf₃.lexAbsPos = -8190 ∧
      lexbuf₃.Shows [104, 105] ∧ lexbuf₃.absolute = lexbuf₂.absolute := by
  obtain ⟨aux₁, lexbuf₁, lexbuf₂, hfirst, hnext, hreached, hst, hlen, habs, hstart, -⟩ :=
    reached_first
  have hk : lexbuf₂.refillState < [104, 105].length := by
    rw [hst]
    decide
  obtain ⟨aux₃, lexbuf₃, hrefill, hshows, habsolute⟩ :=
    lexRefill_shows hreached (.inl rfl) (fits_one hk (by omega) (by omega))
  obtain ⟨-, hlen', habs', hstart', -⟩ := lexRefill_one hk (by omega) hrefill
  rw [habs] at habs'
  rw [hstart] at hstart'
  exact ⟨aux₁, lexbuf₁, lexbuf₂, aux₃, lexbuf₃, hfirst, hnext, hrefill, hlen'.trans hlen, hstart',
    habs', hshows, habsolute⟩

/-- The lexeme of a token that was read by two refills. -/
theorem lexeme_shows_hi :
    ∃ lexbuf, Reached (readOne [104, 105]) lexbuf ∧ lexbuf.lexemeStart = 0 ∧
      lexbuf.lexemeEnd = 2 ∧ lexbuf.lexeme = some [104, 105, 0] := by
  obtain ⟨-, -, lexbuf₂, -, -, hreached, hst, hlen, habs, hstart, hcurr⟩ := reached_first
  have hk : lexbuf₂.refillState < [104, 105].length := by
    rw [hst]
    decide
  have hfits : lexbuf₂.Fits (readOne [104, 105]) [0] := fits_one hk (by omega) (by omega)
  obtain ⟨aux₃, lexbuf₃, hrefill, -, -⟩ := hreached.filled.refill (.inl rfl) hfits
  obtain ⟨-, hlen', habs', hstart', hcurr'⟩ := lexRefill_one hk (by omega) hrefill
  rw [habs] at habs'
  rw [hstart] at hstart'
  rw [hcurr] at hcurr'
  obtain ⟨lexbuf, hnext⟩ : ∃ lexbuf, lexbuf =
      { lexbuf₃ with lexCurrPos := int32 (lexbuf₃.lexCurrPos + 1) } := ⟨_, rfl⟩
  have hrun : EngineOp.next.run lexbuf₃ = some lexbuf := by
    rw [hnext, EngineOp.run, hlen', hlen, hcurr']
    rfl
  have hreached' := (hreached.refill (.inl rfl) hfits hrefill).engine .next hrun
  have hend : lexbuf.lexAbsPos + lexbuf.lexCurrPos = 2 := by
    rw [hnext, habs', hcurr']
    rfl
  have hstart₀ : lexbuf.lexemeStart = 0 := by
    rw [hnext, Lexbuf.lexemeStart, habs', hstart']
    rfl
  have hend₂ : lexbuf.lexemeEnd = 2 := by
    rw [Lexbuf.lexemeEnd, hend]
    rfl
  obtain ⟨n, s, hn, hs, hlength, hzero, hchars⟩ := lexeme_shows hreached' (by omega)
  obtain rfl : n = 2 := by omega
  refine ⟨lexbuf, hreached', hstart₀, hend₂, hs.trans (congrArg some ?_)⟩
  match s, hlength with
  | [a, b, c], _ =>
    obtain ⟨q, hq, -, ha⟩ := hchars 0 (by decide)
    obtain ⟨q', hq', -, hb⟩ := hchars 1 (by decide)
    obtain rfl : q = 0 := by omega
    obtain rfl : q' = 1 := by omega
    simp only [List.getElem?_cons_zero, List.getElem?_cons_succ, Option.some.injEq] at ha hb hzero
    rw [ha, hb, hzero]

end ConcurrentCyclone.Lib
