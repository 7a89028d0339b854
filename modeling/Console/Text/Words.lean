/-!
# Shell words

Splitting a line into words. Space, tab and line feed separate words, and no other character does.

* `'…'` is literal, and `"…"` is too, except for a backslash before `$`, a backtick, `"`, a
  backslash or a line feed;
* outside quotes a backslash makes the next character literal, and a final one stands for itself;
* a backslash before a line feed vanishes with it: inside a word the word goes on, between words
  it separates;
* `#` where a word could begin starts a comment up to the line feed;
* a quote that is not closed makes the whole line unsplittable.

The words are read by one function per place in a line (`between`, `inWord`, `inSingle`,
`inDouble`, `inComment`), each of which takes the word read so far.
-/

namespace Console.Text.Words

/-- A character that separates words. -/
def isSeparator (c : Char) : Bool := c == ' ' || c == '\t' || c == '\n'

/-- A character that a backslash makes literal between double quotes. -/
def isEscapable (c : Char) : Bool := c == '$' || c == '\x60' || c == '"' || c == '\\'

/-- Puts a finished word in front. -/
def emit (word : List Char) (rest : Option (List String)) : Option (List String) :=
  rest.map (String.ofList word :: ·)

mutual

/-- Between words. -/
def between : List Char → Option (List String)
  | [] => some []
  | '\'' :: cs => inSingle [] cs
  | '"' :: cs => inDouble [] cs
  | ['\\'] => emit ['\\'] (some [])
  | '\\' :: '\n' :: cs => between cs
  | '\\' :: c :: cs => inWord [c] cs
  | '#' :: cs => inComment cs
  | c :: cs => if isSeparator c then between cs else inWord [c] cs

/-- Inside a word, outside quotes. -/
def inWord (word : List Char) : List Char → Option (List String)
  | [] => emit word (some [])
  | '\'' :: cs => inSingle word cs
  | '"' :: cs => inDouble word cs
  | ['\\'] => emit (word ++ ['\\']) (some [])
  | '\\' :: '\n' :: cs => inWord word cs
  | '\\' :: c :: cs => inWord (word ++ [c]) cs
  | c :: cs => if isSeparator c then emit word (between cs) else inWord (word ++ [c]) cs

/-- Between single quotes. -/
def inSingle (word : List Char) : List Char → Option (List String)
  | [] => none
  | '\'' :: cs => inWord word cs
  | c :: cs => inSingle (word ++ [c]) cs

/-- Between double quotes. -/
def inDouble (word : List Char) : List Char → Option (List String)
  | [] => none
  | '"' :: cs => inWord word cs
  | ['\\'] => none
  | '\\' :: '\n' :: cs => inDouble word cs
  | '\\' :: c :: cs => inDouble (word ++ if isEscapable c then [c] else ['\\', c]) cs
  | c :: cs => inDouble (word ++ [c]) cs

/-- In a comment. -/
def inComment : List Char → Option (List String)
  | [] => some []
  | '\n' :: cs => between cs
  | _ :: cs => inComment cs

end

/-- The words of a line, or nothing if a quote stays open. -/
def split (line : String) : Option (List String) := between line.toList

end Console.Text.Words
