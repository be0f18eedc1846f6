import ScriptIndex.Path
import ScriptIndex.Text.Cut
import ScriptIndex.Text.Utf8

/-!
# Addresses of documents

An editor names documents by URIs. The URI of a file holds the components of its path, with every
byte written by its number that has a meaning of its own in a URI.  A URI is taken as it is written:
scheme and host are not put in lower case, dots between slashes stay, and bytes are not written
otherwise, so an editor that spells an address in two ways names two documents.

* `Uri.ofPath?` — the URI of an absolute path;
* `Uri.toPath?` — the path of a URI that names one on this machine.
-/

namespace ScriptIndex

/-- A URI, as written. -/
structure Uri where
  text : String
deriving DecidableEq, Repr

namespace Uri

def fileScheme : List Char := "file://".toList

/-- The ASCII characters that stand in a URI only by their number. -/
def reserved : List Char := [' ', '"', '#', '<', '>', '?', '`', '\x7b', '\x7d', '/', '%', '\\']

/-- Whether a byte is written by its number. -/
def isEncoded (byte : UInt8) : Bool :=
  byte < 0x20 || byte ≥ 0x7F || reserved.contains (Char.ofNat byte.toNat)

/-- A digit of base sixteen, as a URI writes it. -/
def hexDigit (n : Nat) : Char :=
  (Text.hexDigit n).toUpper

def encodeByte (byte : UInt8) : List Char :=
  if isEncoded byte then ['%', hexDigit (byte.toNat / 16), hexDigit (byte.toNat % 16)]
  else [Char.ofNat byte.toNat]

def encode (bytes : List UInt8) : List Char :=
  bytes.flatMap encodeByte

/-- The bytes of a part of a URI; a percent sign without two digits stands for itself. -/
def decodeBytes : List Char → List UInt8
  | [] => []
  | '%' :: a :: b :: rest =>
    match Text.hexValue? a, Text.hexValue? b with
    | some high, some low => UInt8.ofNat (high * 16 + low) :: decodeBytes rest
    | _, _ => 0x25 :: decodeBytes (a :: b :: rest)
  | c :: rest => String.utf8EncodeChar c ++ decodeBytes rest

/-- The URI of an absolute path: dots and repeated slashes vanish, `..` stays. -/
def ofPath? (p : Path) : Option Uri :=
  match p.components with
  | .root :: [] => some ⟨"file:///"⟩
  | .root :: parts =>
    some ⟨String.ofList (fileScheme ++ parts.flatMap fun part => '/' :: encode part.bytes)⟩
  | _ => none

/-- The host of an authority, without the user before it and the number after it. -/
def hostOf (authority : List Char) : List Char :=
  ((Text.cutLast? ['@'] authority).elim authority Prod.snd).takeWhile (· ≠ ':')

/-- Whether an authority stands for this machine. -/
def isLocal (authority : List Char) : Bool :=
  authority = [] || hostOf authority = "localhost".toList

/-- What names a file in a URI: all after the scheme and the authority, up to a query or a fragment.
There is none if the authority is another machine. -/
def pathPart? (uri : List Char) : Option (List Char) :=
  match Text.cut? [':'] (uri.takeWhile fun c => c ≠ '?' && c ≠ '#') with
  | none => none
  | some (_, '/' :: '/' :: rest) =>
    let authority := rest.takeWhile (· ≠ '/')
    if isLocal authority then some (rest.drop authority.length) else none
  | some (_, rest) => some rest

/-- The characters of a scheme after its first letter. -/
def isSchemeChar (c : Char) : Bool :=
  c.isAlphanum || c = '+' || c = '-' || c = '.'

/-- Whether a text starts with a scheme. -/
def hasScheme (uri : List Char) : Bool :=
  match Text.cut? [':'] uri with
  | some (c :: rest, _) => c.isAlpha && rest.all isSchemeChar
  | _ => false

/-- A path that ends like the name of a drive, in a letter and a colon or bar, is closed by a slash. -/
def closeDrive (path : List UInt8) : List UInt8 :=
  match path.reverse with
  | mark :: letter :: _ :: _ =>
    if (mark = 0x3A || mark = 0x7C) && (Char.ofNat letter.toNat).isAlpha then path ++ [0x2F] else path
  | _ => path

/-- The path of a URI that names one on this machine. The scheme does not matter. -/
def toPath? (uri : Uri) : Option Path :=
  match pathPart? uri.text.toList with
  | some ('/' :: rest) => some ⟨closeDrive (decodeBytes ('/' :: rest))⟩
  | _ => none

end Uri

end ScriptIndex
