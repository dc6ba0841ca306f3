/-! # XML trees

Elements with attributes in their order and children, and texts. `indent` puts every child element
on a line of its own and touches no element that holds text alone.
-/

namespace StoryFlow

inductive Xml where
  | element (name : String) (attributes : List (String × String)) (children : List Xml)
  | text (s : String)
deriving Inhabited

namespace Xml

/-- An element that holds one text. -/
def leaf (name : String) (s : String) : Xml :=
  element name [] [text s]

def isElement : Xml → Bool
  | element .. => true
  | text _ => false

def escapeText (c : Char) : List Char :=
  if c = '&' then "&amp;".toList
  else if c = '<' then "&lt;".toList
  else if c = '>' then "&gt;".toList
  else [c]

/-- Quotes, tabs and line ends are written as references too. -/
def escapeAttribute (c : Char) : List Char :=
  if c = '"' then "&quot;".toList
  else if c = '\t' then "&#9;".toList
  else if c = '\n' then "&#10;".toList
  else if c = '\r' then "&#13;".toList
  else escapeText c

def attributeChars (a : String × String) : List Char :=
  ' ' :: (a.1.toList ++ '=' :: '"' :: (a.2.toList.flatMap escapeAttribute ++ ['"']))

mutual

/-- An element without children is written as one tag. -/
def chars : Xml → List Char
  | text s => s.toList.flatMap escapeText
  | element name attributes [] =>
    '<' :: (name.toList ++ attributes.flatMap attributeChars ++ ['/', '>'])
  | element name attributes (c :: cs) =>
    '<' :: (name.toList ++ attributes.flatMap attributeChars ++ '>' :: (chars c ++ childChars cs ++
      '<' :: '/' :: (name.toList ++ ['>'])))

def childChars : List Xml → List Char
  | [] => []
  | x :: xs => chars x ++ childChars xs

end

/-- A line feed and two spaces per level. -/
def lineBreak (depth : Nat) : Xml :=
  text (String.ofList ('\n' :: List.replicate (2 * depth) ' '))

mutual

/-- Puts the child elements on lines of their own, one level deeper, and the end tag of an element
that has some on the line after them. -/
def indent (depth : Nat) : Xml → Xml
  | text s => text s
  | element name attributes children =>
    if children.any isElement then
      element name attributes (indentChildren depth children ++ [lineBreak depth])
    else element name attributes children

def indentChildren (depth : Nat) : List Xml → List Xml
  | [] => []
  | x :: xs =>
    if x.isElement then lineBreak (depth + 1) :: indent (depth + 1) x :: indentChildren depth xs
    else x :: indentChildren depth xs

end

/-- The document with its declaration. -/
def document (root : Xml) : String :=
  "<?xml version=\"1.0\" encoding=\"UTF-8\"?>\n" ++ String.ofList root.chars

end Xml

end StoryFlow
