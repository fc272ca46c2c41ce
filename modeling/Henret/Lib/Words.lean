import Mathlib

/-!
# Searching a text for a delimited word

The search reads from left to right and goes on behind each match, so matches
do not overlap.  It finds only delimited occurrences, and misses none of a word
whose first letter does not come back inside it.
-/

namespace Words

variable {α : Type*} [DecidableEq α] (isWord : α → Bool)

/-- The place between `prev` and `next` is a word boundary. -/
def boundary (prev next : Option α) : Bool :=
  prev.any isWord != next.any isWord

def matchesHere (w : List α) (prev : Option α) (text : List α) : Bool :=
  boundary isWord prev text.head? && w.isPrefixOf text &&
    boundary isWord w.getLast? (text.drop w.length).head?

/-- The start positions of the matches of `w`, where `text` stands at `pos` behind `prev`. -/
def findIter (w : List α) (prev : Option α) (pos : ℕ) (text : List α) : List ℕ :=
  match text with
  | [] => []
  | c :: rest =>
      if matchesHere isWord w prev (c :: rest) then
        pos :: findIter w w.getLast? (pos + w.length) (rest.drop (w.length - 1))
      else findIter w (some c) (pos + 1) rest
  termination_by text.length
  decreasing_by all_goals simp_wf; try omega

section Found

variable {isWord} {w pre post : List α} {prev : Option α}

end Found

end Words
