import Depot.Member

set_option autoImplicit false

/-
The byte form of an archive. Every string, syntactic or not, is written as its length in eight
bytes, its bytes, and zeros up to a multiple of eight. In terms of strings,

* an archive is `stage-archive-1`, `(`, `type` and a node,
* the node of a file is `regular`, `contents`, the content and `)`,
* the node of a directory is `directory`, its entries and `)`, and
* an entry is `entry`, `(`, `name`, the name, `node`, `(`, `type`, the node of the member and `)`.
-/

namespace Depot.Archive

/-- The zeros after a string of the given length. -/
def padding (length : Nat) : Bytes :=
  List.replicate ((8 - length % 8) % 8) 0

def string (content : Bytes) : Bytes :=
  Bytes.ofNat 8 content.length ++ (content ++ padding content.length)

/-- The strings of syntax, one after the other. -/
def token (words : List (List Char)) : Bytes :=
  words.flatMap fun word => string (word.map fun c => UInt8.ofNat c.toNat)

def opening : Bytes :=
  token [['s', 't', 'a', 'g', 'e', '-', 'a', 'r', 'c', 'h', 'i', 'v', 'e', '-', '1'], ['('],
    ['t', 'y', 'p', 'e']]

def regular : Bytes :=
  token [['r', 'e', 'g', 'u', 'l', 'a', 'r'], ['c', 'o', 'n', 't', 'e', 'n', 't', 's']]

def directory : Bytes :=
  token [['d', 'i', 'r', 'e', 'c', 't', 'o', 'r', 'y']]

def entry : Bytes :=
  token [['e', 'n', 't', 'r', 'y'], ['('], ['n', 'a', 'm', 'e']]

def node : Bytes :=
  token [['n', 'o', 'd', 'e'], ['('], ['t', 'y', 'p', 'e']]

def closing : Bytes :=
  token [[')']]

mutual

def layout : Member → Bytes
  | .file _ content => regular ++ (string content ++ closing)
  | .directory _ children => directory ++ (layoutEntries children ++ closing)

def layoutEntries : List Member → Bytes
  | [] => []
  | member :: rest =>
    entry ++ (string member.name.bytes ++
      (node ++ (layout member ++ (closing ++ layoutEntries rest))))

end

/-- The archive whose root directory holds the given members. -/
def layoutArchive (members : List Member) : Bytes :=
  opening ++ (directory ++ (layoutEntries members ++ closing))

end Depot.Archive
