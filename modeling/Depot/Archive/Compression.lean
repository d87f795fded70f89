import Depot.Archive.Reader
import Depot.Archive.Writer
import Depot.Text.Integer
import Depot.Zstd.Stream

set_option autoImplicit false

namespace Depot.Archive

/-- How the bytes of an archive are compressed. -/
inductive Compression where
  | none
  | zstd (level : Int)
deriving Repr, DecidableEq

instance : Inhabited Compression := ⟨.none⟩

namespace Compression

/-- The level of compression unless another is given. -/
def defaultLevel : Int := 3

def display : Compression → String
  | none => "none"
  | zstd level => "zstd:" ++ toString level

/-- Reads a setting: `none`, `zstd`, or `zstd:` and a level of 32 bits. -/
def ofString? (text : String) : Option Compression :=
  if text = "none" then some none
  else if text = "zstd" then some (zstd defaultLevel)
  else
    match text.toList with
    | 'z' :: 's' :: 't' :: 'd' :: ':' :: level => (Text.int32? level).map zstd
    | _ => Option.none

def complaint (text : String) : String :=
  "invalid compression '" ++ text ++ "', expected 'none', 'zstd' or 'zstd:<level>'"

/-- A way to compress byte strings at a level, and to decompress them. -/
structure Codec where
  compress (level : Int) (content : Bytes) : Bytes
  decompress (frames : Bytes) : Except Zstd.Fault Bytes

/-- Frames that store the bytes as they are, whatever the level, and that are read like any others.
-/
def Codec.stored : Codec where
  compress _ := Zstd.compress
  decompress := Zstd.decompress

def apply (codec : Codec) (compression : Compression) (archive : Bytes) : Bytes :=
  match compression with
  | none => archive
  | zstd level => codec.compress level archive

end Compression

open Compression (Codec)

/-- The archive with the given members, compressed as asked for. -/
def encodeWith (codec : Codec) (compression : Compression) (members : List Member) :
    Except WriteFault Bytes :=
  (encodePlain members).map (compression.apply codec)

/-- Whether a byte string starts as a compressed frame does. -/
def isCompressed (input : Bytes) : Bool :=
  Zstd.magic.isPrefixOf input

/-- The members of an archive, which may be compressed. -/
def decodeWith (codec : Codec) (input : Bytes) : Except ReadFault (List Member) :=
  if isCompressed input then
    match codec.decompress input with
    | .ok archive => decodePlain archive
    | .error .incomplete => .error .incompleteFrame
    | .error .corrupt => .error .corruptFrame
  else decodePlain input

/-- The archive with the given members, stored in frames if it is to be compressed. -/
def encode (compression : Compression) (members : List Member) : Except WriteFault Bytes :=
  encodeWith .stored compression members

/-- The members of an archive, which may be compressed. -/
def decode (input : Bytes) : Except ReadFault (List Member) :=
  decodeWith .stored input

end Depot.Archive
