import Mathlib

/-!
# The lexical structure of a Lean source text

A source is a sequence of code tokens, line comments, nested block comments,
string literals and character literals.  Notations make the tokens an open set,
so a token is any text at whose head no comment and no string opens; behind its
head it may hold a double quote or the delimiters of a comment.  A second
reading of the same text knows neither tokens nor character literals: there a
double quote outside comments always opens a string, and a string or comment
may run to the end of the text.  Every text has such a reading.
-/

namespace Henret.LeanText

/-- What a character of the text is part of; `escaped` is the one behind a backslash in a string. -/
inductive Role
  | code
  | hidden
  | escaped
deriving DecidableEq

structure Cell where
  char : Char
  role : Role
deriving DecidableEq

def chars (cells : List Cell) : List Char := cells.map Cell.char

def inCode (text : List Char) : List Cell := text.map (⟨·, .code⟩)

def hide (text : List Char) : List Cell := text.map (⟨·, .hidden⟩)

inductive StrItem
  | plain (c : Char)
  | escape (c : Char)
deriving DecidableEq

def StrItem.cells : StrItem → List Cell
  | plain c => [⟨c, .hidden⟩]
  | escape c => [⟨'\\', .hidden⟩, ⟨c, .escaped⟩]

def StrItem.Ok : StrItem → Prop
  | plain c => c ≠ '"' ∧ c ≠ '\\'
  | escape _ => True

/-- A piece of a block comment behind its first delimiter. -/
inductive BlockItem
  | opening
  | closing
  | char (c : Char)
deriving DecidableEq

def BlockItem.text : BlockItem → List Char
  | opening => ['/', '-']
  | closing => ['-', '/']
  | char c => [c]

/-- A token, or the space between two, is given by its first character and the others. -/
inductive Segment
  | code (c : Char) (rest : List Char)
  | lineComment (body : List Char)
  | blockComment (items : List BlockItem)
  | str (items : List StrItem)
  | charLit (item : StrItem) (digits : List Char)
deriving DecidableEq

def charLitText (item : StrItem) (digits : List Char) : List Char :=
  '\'' :: chars item.cells ++ digits ++ ['\'']

def Segment.cells : Segment → List Cell
  | code c rest => inCode (c :: rest)
  | lineComment body => hide ('-' :: '-' :: body)
  | blockComment items => hide ('/' :: '-' :: items.flatMap BlockItem.text)
  | str items => ⟨'"', .hidden⟩ :: items.flatMap StrItem.cells ++ [⟨'"', .hidden⟩]
  | charLit item digits => hide (charLitText item digits)

def cellsOf (segs : List Segment) : List Cell := segs.flatMap Segment.cells

/-- No comment and no string opens at the head of `text`. -/
def Plain (text : List Char) : Prop :=
  text.head? ≠ some '"' ∧ text.take 2 ≠ ['-', '-'] ∧ text.take 2 ≠ ['/', '-']

/-- No comment delimiter stands at the head of `text`. -/
def Inert (text : List Char) : Prop :=
  text.take 2 ≠ ['/', '-'] ∧ text.take 2 ≠ ['-', '/']

/-- The pieces in front of `next` take a comment from nesting depth `d` to `e`. -/
def Nests (next : List Char) : ℕ → ℕ → List BlockItem → Prop
  | d, e, [] => d = e
  | 0, _, _ :: _ => False
  | d + 1, e, .opening :: items => Nests next (d + 2) e items
  | d + 1, e, .closing :: items => Nests next d e items
  | d + 1, e, .char c :: items =>
      Inert (c :: items.flatMap BlockItem.text ++ next) ∧ Nests next (d + 1) e items

/-- The segment ends where it says when `next` is the text behind it. -/
def Segment.Ok (next : List Char) : Segment → Prop
  | code c rest => Plain (c :: rest ++ next)
  | lineComment body => '\n' ∉ body ∧ (next = [] ∨ next.head? = some '\n')
  | blockComment items => Nests next 1 0 items
  | str items => ∀ it ∈ items, it.Ok
  | charLit (.plain c) digits => c ≠ '\\' ∧ c ≠ '\'' ∧ digits = []
  | charLit (.escape c) digits => c ≠ '\n' ∧ ∀ d ∈ digits, d.isAlphanum = true

def Reads (next : List Char) : List Segment → Prop
  | [] => True
  | seg :: segs => seg.Ok (chars (cellsOf segs) ++ next) ∧ Reads next segs

instance (text : List Char) : Decidable (Plain text) :=
  inferInstanceAs (Decidable (_ ∧ _ ∧ _))

instance (text : List Char) : Decidable (Inert text) :=
  inferInstanceAs (Decidable (_ ∧ _))

instance decidableNests (next : List Char) :
    (d e : ℕ) → (items : List BlockItem) → Decidable (Nests next d e items)
  | 0, e, [] => inferInstanceAs (Decidable (0 = e))
  | d + 1, e, [] => inferInstanceAs (Decidable (d + 1 = e))
  | 0, _, _ :: _ => isFalse id
  | d + 1, e, .opening :: items => decidableNests next (d + 2) e items
  | d + 1, e, .closing :: items => decidableNests next d e items
  | d + 1, e, .char _ :: items =>
      have := decidableNests next (d + 1) e items
      inferInstanceAs (Decidable (_ ∧ _))

instance : (it : StrItem) → Decidable it.Ok
  | .plain _ => inferInstanceAs (Decidable (_ ∧ _))
  | .escape _ => isTrue trivial

instance (next : List Char) : (seg : Segment) → Decidable (seg.Ok next)
  | .code c rest => inferInstanceAs (Decidable (Plain (c :: rest ++ next)))
  | .lineComment _ => inferInstanceAs (Decidable (_ ∧ _))
  | .blockComment items => decidableNests next 1 0 items
  | .str items => inferInstanceAs (Decidable (∀ it ∈ items, it.Ok))
  | .charLit (.plain _) _ => inferInstanceAs (Decidable (_ ∧ _ ∧ _))
  | .charLit (.escape _) digits =>
      inferInstanceAs (Decidable (_ ∧ ∀ d ∈ digits, d.isAlphanum = true))

instance decidableReads (next : List Char) : (segs : List Segment) → Decidable (Reads next segs)
  | [] => isTrue trivial
  | _ :: segs =>
      have := decidableReads next segs
      inferInstanceAs (Decidable (_ ∧ _))

structure Source where
  segs : List Segment
  reads : Reads [] segs

def Source.cells (S : Source) : List Cell := cellsOf S.segs

def Source.text (S : Source) : List Char := chars S.cells

/-- No comment and no string opens anywhere in the text. -/
def PlainThroughout (next : List Char) : List Char → Prop
  | [] => True
  | c :: text => Plain (c :: text ++ next) ∧ PlainThroughout next text

instance decidablePlainThroughout (next : List Char) :
    (text : List Char) → Decidable (PlainThroughout next text)
  | [] => isTrue trivial
  | _ :: text =>
      have := decidablePlainThroughout next text
      inferInstanceAs (Decidable (_ ∧ _))

/-- No double quote and no delimiter of a comment inside a token or a character literal. -/
def Segment.Clear (next : List Char) : Segment → Prop
  | code c rest => PlainThroughout next (c :: rest)
  | charLit item digits => '"' ∉ charLitText item digits
  | _ => True

instance (next : List Char) : (seg : Segment) → Decidable (seg.Clear next)
  | .code c rest => inferInstanceAs (Decidable (PlainThroughout next (c :: rest)))
  | .charLit item digits => inferInstanceAs (Decidable ('"' ∉ charLitText item digits))
  | .lineComment _ | .blockComment _ | .str _ => isTrue trivial

def Clear (next : List Char) : List Segment → Prop
  | [] => True
  | seg :: segs => seg.Clear (chars (cellsOf segs) ++ next) ∧ Clear next segs

instance decidableClear (next : List Char) : (segs : List Segment) → Decidable (Clear next segs)
  | [] => isTrue trivial
  | _ :: segs =>
      have := decidableClear next segs
      inferInstanceAs (Decidable (_ ∧ _))

/-! ## The reading without tokens and character literals -/

/-- What the text breaks off in; a string may end with a lone backslash. -/
inductive Tail
  | closed
  | openString (items : List StrItem) (lone : Bool)
  | openComment (items : List BlockItem)

def loneBackslash (lone : Bool) : List Cell := if lone then [⟨'\\', .hidden⟩] else []

def Tail.cells : Tail → List Cell
  | closed => []
  | openString items lone => ⟨'"', .hidden⟩ :: items.flatMap StrItem.cells ++ loneBackslash lone
  | openComment items => hide ('/' :: '-' :: items.flatMap BlockItem.text)

def Tail.Ok : Tail → Prop
  | closed => True
  | openString items _ => ∀ it ∈ items, it.Ok
  | openComment items => ∃ e, Nests [] 1 (e + 1) items

/-- Neither a character literal nor a token of several characters. -/
def Segment.Blind : Segment → Prop
  | charLit _ _ => False
  | code _ rest => rest = []
  | _ => True

structure BlindReading (text : List Char) where
  segs : List Segment
  tail : Tail
  blind : ∀ seg ∈ segs, seg.Blind
  reads : Reads (chars tail.cells) segs
  tail_ok : tail.Ok
  text_eq : chars (cellsOf segs ++ tail.cells) = text

def BlindReading.cells {text : List Char} (B : BlindReading text) : List Cell :=
  cellsOf B.segs ++ B.tail.cells

/-! ## Characters of cells -/

@[simp] theorem chars_append (a b : List Cell) : chars (a ++ b) = chars a ++ chars b :=
  List.map_append

@[simp] theorem cellsOf_nil : cellsOf [] = [] := rfl

@[simp] theorem cellsOf_cons (seg : Segment) (segs : List Segment) :
    cellsOf (seg :: segs) = seg.cells ++ cellsOf segs := rfl

namespace BlindReading

/-- A segment in front of a reading. -/
def cons {text : List Char} (B : BlindReading text) (seg : Segment) (hseg : seg.Blind)
    (hok : seg.Ok text) : BlindReading (chars seg.cells ++ text) where
  segs := seg :: B.segs
  tail := B.tail
  blind := by
    intro s hs
    rcases List.mem_cons.mp hs with rfl | hs
    · exact hseg
    · exact B.blind s hs
  reads := by
    refine ⟨?_, B.reads⟩
    rw [← chars_append, B.text_eq]
    exact hok
  tail_ok := B.tail_ok
  text_eq := by rw [cellsOf_cons, List.append_assoc, chars_append, B.text_eq]

end BlindReading

/-- A comment that is not broken off ends with a delimiter. -/
theorem Nests.getLast? {next : List Char} {d : ℕ} {items : List BlockItem}
    (h : Nests next (d + 1) 0 items) : items.getLast? = some .closing := by
  induction items generalizing d with
  | nil => cases h
  | cons it items ih =>
      have hlater : ∀ e, Nests next (e + 1) 0 items →
          (it :: items).getLast? = some .closing := by
        intro e he
        rw [List.getLast?_cons, ih he, Option.getD_some]
      cases it with
      | opening => exact hlater (d + 1) h
      | char c => exact hlater d h.2
      | closing =>
          cases d with
          | zero =>
              cases items with
              | nil => rfl
              | cons it items => exact h.elim
          | succ d => exact hlater d h

end Henret.LeanText
