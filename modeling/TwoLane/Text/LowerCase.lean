import TwoLane.Text.Cased
import TwoLane.Text.LowerCaseTable
import TwoLane.Text.Range

/-! # Lower case

A text in lower case. Every letter has its form, whatever stands around it, but for the capital sigma, which has
a form of its own at the end of a word.
-/

namespace TwoLane.Text

/-- Whether a code point belongs to a run. -/
def CaseRun.contains (run : CaseRun) (n : Nat) : Bool :=
  run.first ≤ n && n ≤ run.last && (n - run.first) % run.distance == 0

/-- A character in lower case, wherever it stands. -/
def lowerChar (c : Char) : List Char :=
  if c = '\u0130' then ['i', '\u0307']
  else
    match lowerCaseRuns.find? (fun run => run.contains c.toNat) with
    | some run => [Char.ofNat (c.toNat + run.shift).toNat]
    | none => [c]

/-- Whether the first character that is not passed over is a cased letter. -/
def startsCased (s : List Char) : Bool :=
  ((s.dropWhile (inRanges caseIgnorableRanges)).head?).any (inRanges casedRanges)

/-- A text in lower case behind the given characters, the last one of which comes first. -/
def lowerAfter (before : List Char) : List Char → List Char
  | [] => []
  | c :: rest =>
      let form :=
        if c = '\u03a3' then
          if startsCased before && !startsCased rest then ['\u03c2'] else ['\u03c3']
        else lowerChar c
      form ++ lowerAfter (c :: before) rest

def lower (text : String) : String :=
  String.ofList (lowerAfter [] text.toList)

end TwoLane.Text
