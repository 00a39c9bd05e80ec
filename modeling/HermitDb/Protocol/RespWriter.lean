import HermitDb.Bytes

/-!
# RESP2 reply serialization

Every function returns the framed wire bytes of one reply.
-/

namespace HermitDb.Resp

/-- `+<text>\r\n` -/
def simple (text : Bytes) : Bytes :=
  ascii "+" ++ text ++ crlf

/-- `-<message>\r\n` -/
def error (message : Bytes) : Bytes :=
  ascii "-" ++ message ++ crlf

/-- `:<number>\r\n`.  Container sizes are passed as they are: none reaches
`2^63`. -/
def integer (number : Int) : Bytes :=
  ascii ":" ++ intToString number ++ crlf

/-- `$<length>\r\n<payload>\r\n` -/
def bulk (payload : Bytes) : Bytes :=
  ascii "$" ++ unsignedToString payload.length ++ crlf ++ payload ++ crlf

def nullBulk : Bytes :=
  ascii "$-1\r\n"

/-- `*<count>\r\n` and the elements, which are already encoded. -/
def array (encodedElements : List Bytes) : Bytes :=
  ascii "*" ++ unsignedToString encodedElements.length ++ crlf ++
    encodedElements.flatten

def emptyArray : Bytes :=
  ascii "*0\r\n"

end HermitDb.Resp
