namespace Textproto.Camel

/-!
Names in lower camel case. A name is cut into words at underscores, where a lower-case letter
meets an upper-case one (`fooBar`), and before the last capital of a run that a lower-case
letter follows (`XMLHttp`).
-/

/-- The case of the last letter of a word, digits aside. -/
inductive Case where
  | none
  | lower
  | upper
  deriving Repr, DecidableEq

def Case.after (c : Char) (case : Case) : Case :=
  if c.isLower then .lower else if c.isUpper then .upper else case

/-- The words of the rest of a name, `word` being the one begun, last character first. -/
def wordsFrom (word : List Char) (case : Case) : List Char → List (List Char)
  | [] => []
  | [c] => if c = '_' then [] else [(c :: word).reverse]
  | c :: next :: rest =>
      if c = '_' then wordsFrom word case (next :: rest)
      else if next = '_' || (case.after c = .lower && next.isUpper) then
        (c :: word).reverse :: wordsFrom [] .none (next :: rest)
      else if case = .upper && c.isUpper && next.isLower then
        word.reverse :: wordsFrom [c] .none (next :: rest)
      else wordsFrom (c :: word) (case.after c) (next :: rest)

def words (name : List Char) : List (List Char) :=
  wordsFrom [] .none name

def capitalize : List Char → List Char
  | [] => []
  | c :: rest => c.toUpper :: rest.map Char.toLower

/-- The first word in lower case, every other one capitalised. -/
def ofWords : List (List Char) → List Char
  | [] => []
  | first :: rest => first.map Char.toLower ++ rest.flatMap capitalize

def lowerCamel (name : String) : String :=
  String.ofList (ofWords (words name.toList))

end Textproto.Camel
