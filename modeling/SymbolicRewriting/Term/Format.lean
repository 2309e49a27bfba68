import SymbolicRewriting.Term.Basic

/-!
Terms as text. String tokens stand in quotes without escapes, a fresh variable starts with a mark
of exclamation and a rest variable ends in three dots. The items of a sequence are separated by its
operator without its outer underscores, and a cell is written between two tags with its name.

A term is written at the end of the text that stands before it, so that no part of a text is copied
for each term around it. `write_eq_append` says that what is written does not depend on that text.
-/

namespace SymbolicRewriting

def Variable.format (v : Variable) : String :=
  (if v.isFresh then "!" else "") ++ v.name ++ ":" ++ v.sort ++ (if v.isRest then "..." else "")

def trimUnderscores (name : String) : String :=
  let trimmed := name.toList.dropWhile (· == '_')
  String.ofList (trimmed.reverse.dropWhile (· == '_')).reverse

namespace Term

mutual

def write (text : String) : Term → String
  | token sort value =>
      if sort = Symbol.string then text ++ "\"" ++ value ++ "\"" else text ++ value
  | var v => text ++ v.format
  | app label args =>
      if args.isEmpty then text ++ label
      else writeAll ", " "" (text ++ label ++ "(") args ++ ")"
  | sequence op items =>
      if items.isEmpty then text ++ "." ++ op
      else writeAll (" " ++ trimUnderscores op ++ " ") "" text items
  | collection cells frame =>
      match frame with
      | none => writeCells "" text cells
      | some v =>
          writeCells "" text cells ++ (if cells.isEmpty then "" else " ") ++ v.format

/-- Writes `lead` before the first term and `separator` before each later one. -/
def writeAll (separator lead text : String) : List Term → String
  | [] => text
  | term :: terms => writeAll separator separator (write (text ++ lead) term) terms

/-- Writes `lead` before the first cell and a space before each later one. -/
def writeCells (lead text : String) : List (Cell Term) → String
  | [] => text
  | ⟨_, name, content⟩ :: cells =>
      writeCells " "
        (write (text ++ lead ++ "<" ++ name ++ "> ") content ++ " </" ++ name ++ ">") cells

end

def format (term : Term) : String := term.write ""

mutual

theorem write_append (before text : String) :
    (term : Term) → term.write (before ++ text) = before ++ term.write text
  | token sort value => by
      simp only [write]
      split <;> simp only [String.append_assoc]
  | var v => by simp only [write, String.append_assoc]
  | app label args => by
      simp only [write]
      split
      · simp only [String.append_assoc]
      · rw [String.append_assoc, String.append_assoc, writeAll_append, String.append_assoc]
        simp only [String.append_assoc]
  | sequence op items => by
      simp only [write]
      split
      · simp only [String.append_assoc]
      · exact writeAll_append _ _ before text items
  | collection cells frame => by
      simp only [write]
      split
      · exact writeCells_append _ before text cells
      · simp only [writeCells_append _ before text cells, String.append_assoc]

theorem writeAll_append (separator lead before text : String) :
    (terms : List Term) →
      writeAll separator lead (before ++ text) terms =
        before ++ writeAll separator lead text terms
  | [] => rfl
  | term :: terms => by
      simp only [writeAll, String.append_assoc, write_append before _ term,
        writeAll_append separator separator before _ terms]

theorem writeCells_append (lead before text : String) :
    (cells : List (Cell Term)) →
      writeCells lead (before ++ text) cells = before ++ writeCells lead text cells
  | [] => rfl
  | ⟨_, name, content⟩ :: cells => by
      simp only [writeCells, String.append_assoc, write_append before _ content,
        writeCells_append " " before _ cells]

end

theorem write_eq_append (text : String) (term : Term) : term.write text = text ++ term.format := by
  simpa [format] using write_append text "" term

end Term

end SymbolicRewriting
