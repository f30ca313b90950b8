/-
**Requests to the administration service.**

A message comes with any number of headers, of which the service reads two: a request is what it
reads of a message. This module says what a request asks for, and whether it carries the key of the
service. Headers are octets; one that holds anything but printable ASCII characters and tabs is
passed over.
-/

import Wayfinder.Admin.MediaType
import Wayfinder.Text.Form

namespace Wayfinder.Admin

open Wayfinder.Text

/-- A header of a message. -/
structure Header where
  /-- The name, in which the case of ASCII letters does not count. -/
  name : String
  /-- The value. -/
  value : List UInt8

/-- A message to the administration service. -/
structure Message where
  /-- The method. -/
  method : String
  /-- The address, with its query. -/
  address : String
  /-- The headers, in the order in which they arrive. -/
  headers : List Header := []
  /-- The body. -/
  body : List UInt8 := []

/-- What the service reads of a message. -/
structure Request where
  /-- The method. -/
  method : String
  /-- The address, with its query. -/
  address : String
  /-- The header that carries the key. -/
  authorization : Option (List UInt8) := none
  /-- The header that says how the body is written. -/
  contentType : Option (List UInt8) := none
  /-- The body. -/
  body : List UInt8 := []

namespace Message

/-- The value of the first header with a given name. -/
def header? (message : Message) (name : String) : Option (List UInt8) :=
  (message.headers.find? fun header => sameLetters header.name name).map Header.value

/-- The request that a message makes. -/
def request (message : Message) : Request where
  method := message.method
  address := message.address
  authorization := message.header? "authorization"
  contentType := message.header? "content-type"
  body := message.body

end Message

/-- An address cut into the path and the query. -/
structure Target where
  /-- The path, as it is written. -/
  path : String
  /-- The query, which is empty if there is none. -/
  query : String
deriving DecidableEq, Repr

namespace Target

/-- What is left of an address after the scheme and the host, if it begins with them. -/
def withoutHost (address : List Char) : List Char :=
  match address with
  | '/' :: _ => address
  | _ =>
    match cutOnce '/' address with
    | some (_, '/' :: rest) => rest.dropWhile fun c => c != '/' && c != '?'
    | _ => address

/-- The path and the query of an address; what follows a number sign does not count. -/
def ofAddress (address : String) : Target :=
  let written := withoutHost (address.toList.takeWhile (· != '#'))
  let (path, query) := (cutOnce '?' written).getD (written, [])
  { path := if path.isEmpty then "/" else String.ofList path, query := String.ofList query }

end Target

namespace Request

/-- Whether an octet is a printable ASCII character or a tab. -/
def isLegible (octet : UInt8) : Bool :=
  octet.toNat == 0x09 || (0x20 ≤ octet.toNat && octet.toNat < 0x7F)

/-- The text of a header, if it holds printable ASCII characters and tabs only. -/
def headerText? (header : Option (List UInt8)) : Option String := do
  let octets ← header
  if octets.all isLegible then
    some (String.ofList (octets.map fun octet => Char.ofNat octet.toNat))
  else none

/-- The path and the query that are asked for. -/
def target (request : Request) : Target := .ofAddress request.address

/-- Whether the request carries the key, if there is one. -/
def carries (request : Request) (key : Option String) : Bool :=
  match key with
  | none => true
  | some key => headerText? request.authorization == some ("Bearer " ++ key)

/-- The most octets that a body may have. -/
def bodyLimit : Nat := 2097152

/-- Whether the body has more octets than it may. -/
def isTooLong (request : Request) : Bool := bodyLimit < request.body.length

/-- Whether the body is said to be JSON. -/
def isJson (request : Request) : Bool :=
  (headerText? request.contentType >>= MediaType.ofText?).any MediaType.isJson

end Request

end Wayfinder.Admin
