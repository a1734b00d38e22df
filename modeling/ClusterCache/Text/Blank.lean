/-!
# Blank space and separators

Settings arrive as free text.  This module says which characters are blank, strips them from
both ends, and cuts a text at a separator.  Texts are handled as lists of characters, so that
every function here is a recursion or a library operator on the list.
-/

namespace ClusterCache.Text

/-- The characters that have the Unicode property `White_Space`, in order. -/
def blanks : List Char :=
  ['\t', '\n', '\x0b', '\x0c', '\r', ' ', '\u0085', '\u00a0', '\u1680', '\u2000', '\u2001',
   '\u2002', '\u2003', '\u2004', '\u2005', '\u2006', '\u2007', '\u2008', '\u2009', '\u200a',
   '\u2028', '\u2029', '\u202f', '\u205f', '\u3000']

def isBlank (c : Char) : Bool := blanks.contains c

def trimEnd (cs : List Char) : List Char := (cs.reverse.dropWhile isBlank).reverse

/-- Drops the blanks at both ends and keeps those inside. -/
def trim (cs : List Char) : List Char := trimEnd (cs.dropWhile isBlank)

/-- Cuts at every separator: one piece more than there are separators, pieces may be empty. -/
def split (separator : Char) : List Char → List (List Char)
  | [] => [[]]
  | c :: cs =>
    if c = separator then [] :: split separator cs
    else match split separator cs with
      | [] => [[c]]
      | piece :: pieces => (c :: piece) :: pieces

/-- Cuts at the first separator, if there is one. -/
def splitFirst? (separator : Char) : List Char → Option (List Char × List Char)
  | [] => none
  | c :: cs =>
    if c = separator then some ([], cs)
    else (splitFirst? separator cs).map fun (before, after) => (c :: before, after)

end ClusterCache.Text
