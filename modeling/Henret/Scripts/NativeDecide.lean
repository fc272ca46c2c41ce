import Henret.Lib.Slices
import Henret.Lib.Words
import Henret.Scripts.LeanText

/-!
# The scan for executable `native_decide`

The scanner blanks comments and strings and keeps everything else.  It knows
neither tokens nor character literals, so it follows the blind reading of the
text: a double quote in a character literal opens a string that may swallow
code up to the next double quote, and so does a comment that only seems to open
inside a token.  It also drops the newline of a string gap.
-/

namespace Henret.NativeDecide

open LeanText Slices Words

def blank (c : Char) : Char := if c = '\n' then '\n' else ' '

/-- The loop of `executable_text` on the text ahead of `i`. -/
def executableTextFrom (depth : ℕ) (quote : Option Char) (text : List Char) : List Char :=
  match text with
  | [] => []
  | c :: rest =>
      let pair := (c :: rest).take 2
      if depth ≠ 0 then
        if pair = ['/', '-'] then ' ' :: ' ' :: executableTextFrom (depth + 1) quote rest.tail
        else if pair = ['-', '/'] then ' ' :: ' ' :: executableTextFrom (depth - 1) quote rest.tail
        else blank c :: executableTextFrom depth quote rest
      else
        match quote with
        | some q =>
            if c = '\\' ∧ rest ≠ [] then
              blank c :: ' ' :: executableTextFrom depth (some q) rest.tail
            else if c = q then blank c :: executableTextFrom depth none rest
            else blank c :: executableTextFrom depth (some q) rest
        | none =>
            if pair = ['/', '-'] then ' ' :: ' ' :: executableTextFrom 1 none rest.tail
            else if pair = ['-', '-'] then
              List.replicate ((c :: rest).takeWhile (· ≠ '\n')).length ' ' ++
                executableTextFrom depth none ((c :: rest).dropWhile (· ≠ '\n'))
            else if c = '"' then ' ' :: executableTextFrom depth (some c) rest
            else c :: executableTextFrom depth none rest
  termination_by text.length
  decreasing_by
    all_goals simp_wf
    rename_i hline
    have hc : c = '-' := by
      simp only [pair, List.take_succ_cons, List.cons.injEq] at hline
      exact hline.1
    have hle := (List.dropWhile_suffix (l := rest) (· ≠ '\n')).length_le
    subst hc
    simp only [ne_eq, decide_not] at hle
    simp
    omega

def executableText (text : List Char) : List Char := executableTextFrom 0 none text

def token : List Char :=
  ['n', 'a', 't', 'i', 'v', 'e', '_', 'd', 'e', 'c', 'i', 'd', 'e']

/-- The word characters of Python's regular expressions. -/
structure WordChars where
  isWord : Char → Bool
  ascii : ∀ c, c.toNat < 128 → isWord c = (c.isAlphanum || c == '_')

def lineOf (text : List Char) (start : ℕ) : ℕ := (text.take start).count '\n' + 1

/-- The starts of the matches of the token. -/
def starts (W : WordChars) (clean : List Char) : List ℕ :=
  findIter W.isWord token none 0 clean

/-- The lines `main` reports for the text of one file. -/
def violations (W : WordChars) (text : List Char) : List ℕ :=
  (starts W (executableText text)).map (lineOf (executableText text))

/-- The line ends of a decoded file as `read_text` translates them. -/
def universalNewlines : List Char → List Char
  | [] => []
  | '\r' :: '\n' :: rest => '\n' :: universalNewlines rest
  | c :: rest => (if c = '\r' then '\n' else c) :: universalNewlines rest

/-- The exit code over the tracked files, given by path and decoded content. -/
def main (W : WordChars) (files : List (String × List Char)) : ℕ :=
  let errors := files.flatMap fun file ↦
    (violations W (universalNewlines file.2)).map (file.1, ·)
  if errors = [] then 0 else 1

/-! ## What the loop does in each state -/

section Loop

variable (depth : ℕ) (c : Char) (rest : List Char)

end Loop

/-! ## The scanner follows the blind reading -/

section Hides

variable {W : WordChars} {S : Source} (B : BlindReading S.text)

end Hides

/-! ## What is found -/

section Token

variable {W : WordChars} {S : Source} {i k : ℕ}

variable (hi : S.segs[i]? = some nativeDecide) (hk : (cellsOf (S.segs.take i)).length = k)
  (hcode : ∀ (i : ℕ) (c : Char), S.cells[i]? = some ⟨c, .code⟩ →
    (executableText S.text)[i]? = some c)

include hi hk hcode

end Token

end Henret.NativeDecide
