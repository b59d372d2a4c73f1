/-
The split patterns as expressions.

`render` writes an expression out in the syntax of the pattern strings; what a name in it
means is `reading`.
-/
import InferenceEngine.Lib.Regex
import InferenceEngine.Tokenizer.Pretokenize

namespace InferenceEngine

/-- What stands for characters in a pattern, inside brackets or outside. -/
inductive ClassItem where
  | letter
  | number
  | whitespace
  | notWhitespace
  | char (codepoint : Nat)
deriving DecidableEq, Repr

/-- A class of characters. -/
inductive CharClass where
  | item (i : ClassItem)
  | oneOf (items : List ClassItem)
  | noneOf (items : List ClassItem)
deriving DecidableEq, Repr

/-- `(?i:` is the only mode. -/
inductive GroupMode where
  | caseless
deriving DecidableEq, Repr

/-- The expressions the patterns are made of. -/
abbrev SplitRegex := Regex CharClass GroupMode

/-! ### What they look like

The two patterns are compared with the source as the texts they are there. -/

/-- An item as a pattern writes it. -/
def ClassItem.render : ClassItem → String
  | letter => "\\p\x7bL\x7d"
  | number => "\\p\x7bN\x7d"
  | whitespace => "\\s"
  | notWhitespace => "\\S"
  | char 0x0D => "\\r"
  | char 0x0A => "\\n"
  | char c => String.singleton (Char.ofNat c)

/-- Some items, one behind the other. -/
def renderItems : List ClassItem → String
  | [] => ""
  | i :: items => i.render ++ renderItems items

/-- A class as a pattern writes it. -/
def CharClass.render : CharClass → String
  | item i => i.render
  | oneOf items => "[" ++ renderItems items ++ "]"
  | noneOf items => "[^" ++ renderItems items ++ "]"

/-- A number of turns as a pattern writes it. -/
def renderTurns : Nat → Option Nat → String
  | 0, some 1 => "?"
  | 0, none => "*"
  | 1, none => "+"
  | lo, some hi => "\x7b" ++ lo.repr ++ "," ++ hi.repr ++ "\x7d"
  | lo, none => "\x7b" ++ lo.repr ++ ",\x7d"

/-- An expression as a pattern writes it. -/
def renderRegex : SplitRegex → String
  | .one k => k.render
  | .seq a b => renderRegex a ++ renderRegex b
  | .alt a b => renderRegex a ++ "|" ++ renderRegex b
  | .rep a lo hi => renderRegex a ++ renderTurns lo hi
  | .notAhead a => "(?!" ++ renderRegex a ++ ")"
  | .under .caseless a => "(?i:" ++ renderRegex a ++ ")"

/-! ### What they mean

The classes are read by the tables of the splitter. -/

namespace UnicodeTables

variable (u : UnicodeTables)

/-- The codepoints of an item. -/
def memItem : ClassItem → Nat → Bool
  | .letter, x => u.isLetter x
  | .number, x => u.isNumber x
  | .whitespace, x => u.isWhitespace x
  | .notWhitespace, x => !u.isWhitespace x
  | .char c, x => x == c

/-- The codepoints of a class. -/
def memClass : CharClass → Nat → Bool
  | .item i, x => u.memItem i x
  | .oneOf items, x => items.any fun i => u.memItem i x
  | .noneOf items, x => !items.any fun i => u.memItem i x

/-- Classes by the tables, and ASCII case folding. -/
def reading : Regex.Reading CharClass GroupMode Nat where
  mem := u.memClass
  fold := fun _ => asciiFold

/-- The categories exclude each other, and CR and LF are whitespace. -/
structure Disjoint : Prop where
  letterNumber : ∀ c, u.isLetter c = true → u.isNumber c = false
  letterWhitespace : ∀ c, u.isLetter c = true → u.isWhitespace c = false
  numberWhitespace : ∀ c, u.isNumber c = true → u.isWhitespace c = false
  cr : u.isWhitespace 0x0D = true
  lf : u.isWhitespace 0x0A = true

end UnicodeTables

/-! ### The two patterns

Both are built of the same alternatives.  They differ in how many digits go into one piece. -/

namespace SplitRegex

open Regex ClassItem

/-- One codepoint of an item. -/
def item (i : ClassItem) : SplitRegex := one (.item i)

/-- A word of two characters. -/
def word2 (a b : Nat) : SplitRegex := seq (item (char a)) (item (char b))

/-- A word of three characters. -/
def word3 (a b c : Nat) : SplitRegex := seq (item (char a)) (word2 b c)

/-- `(?i:'s|'t|'re|'ve|'m|'ll|'d)` -/
def contraction : SplitRegex :=
  under .caseless
    (alt (word2 0x27 0x73) (alt (word2 0x27 0x74) (alt (word3 0x27 0x72 0x65)
      (alt (word3 0x27 0x76 0x65) (alt (word2 0x27 0x6D) (alt (word3 0x27 0x6C 0x6C)
        (word2 0x27 0x64)))))))

/-- `[^\r\n\p{L}\p{N}]?\p{L}+` -/
def letterRun : SplitRegex :=
  seq (rep (one (.noneOf [char 0x0D, char 0x0A, letter, number])) 0 (some 1))
    (rep (item letter) 1 none)

/-- ` ?[^\s\p{L}\p{N}]+[\r\n]*` -/
def punctuationRun : SplitRegex :=
  seq (rep (item (char 0x20)) 0 (some 1))
    (seq (rep (one (.noneOf [whitespace, letter, number])) 1 none)
      (rep (one (.oneOf [char 0x0D, char 0x0A])) 0 none))

/-- `\s*[\r\n]+` -/
def newlines : SplitRegex :=
  seq (rep (item whitespace) 0 none) (rep (one (.oneOf [char 0x0D, char 0x0A])) 1 none)

/-- `\s+(?!\S)` -/
def trailing : SplitRegex := seq (rep (item whitespace) 1 none) (notAhead (item notWhitespace))

/-- `\s+` -/
def spaces : SplitRegex := rep (item whitespace) 1 none

/-- The alternatives in their order; the patterns differ in the digits. -/
def alternatives (digits : SplitRegex) : SplitRegex :=
  alt contraction (alt letterRun (alt digits (alt punctuationRun (alt newlines
    (alt trailing spaces)))))

/-- The expression of `kCl100kPattern`. -/
def cl100k : SplitRegex := alternatives (rep (item number) 1 (some 3))

/-- The expression of `kQwen2Pattern`. -/
def qwen2 : SplitRegex := alternatives (item number)

/-- The expression the code selects with a number of digits. -/
def ofSpec (spec : SplitSpec) : SplitRegex := if spec.maxDigitRun = 3 then cl100k else qwen2

theorem render_cl100k : renderRegex cl100k = kCl100kPattern := by decide +kernel

theorem render_qwen2 : renderRegex qwen2 = kQwen2Pattern := by decide +kernel

end SplitRegex

end InferenceEngine
