import Depot.Name

set_option autoImplicit false

namespace Depot.Archive

/-- The classes of errors. -/
inductive FaultKind where
  | invalidData
  | invalidInput
  | unexpectedEnd
  | other
deriving Repr, DecidableEq

def FaultKind.code : FaultKind → String
  | invalidData => "InvalidData"
  | invalidInput => "InvalidInput"
  | unexpectedEnd => "UnexpectedEof"
  | other => "Other"

/-- Why an archive cannot be written. -/
inductive WriteFault where
  | invalidName (error : NameError)
  | duplicateName (name : Bytes)
  | contentTooLong
  | contentTooShort
deriving Repr, DecidableEq

/-- Why a byte string is not read as an archive. -/
inductive ReadFault where
  | endOfInput
  | contentTooShort
  | unexpectedToken
  | rootIsFile
  | tooDeep
  | stringTooLong
  | nonZeroPadding
  | invalidName (error : NameError)
  | duplicateName (name : Bytes)
  | trailingData
  | incompleteFrame
  | corruptFrame
deriving Repr, DecidableEq

def WriteFault.kind : WriteFault → FaultKind
  | contentTooShort => .unexpectedEnd
  | _ => .invalidInput

def WriteFault.message : WriteFault → String
  | invalidName error => error.message
  | duplicateName name => "duplicate entry name: " ++ Text.Utf8.lossy name
  | contentTooLong => "reader contained more data than specified size"
  | contentTooShort => "unexpected end of file"

def ReadFault.kind : ReadFault → FaultKind
  | endOfInput | contentTooShort | incompleteFrame => .unexpectedEnd
  | corruptFrame => .other
  | _ => .invalidData

/-- The text of an error; a frame that does not decompress has none of its own. -/
def ReadFault.message : ReadFault → String
  | endOfInput => "failed to fill whole buffer"
  | contentTooShort => "unexpected end of file"
  | unexpectedToken => "unexpected token"
  | rootIsFile => "archive root is not a directory"
  | tooDeep => "archive nested too deeply"
  | stringTooLong => "string too long"
  | nonZeroPadding => "non-zero padding"
  | invalidName error => error.message
  | duplicateName name => "duplicate entry name: " ++ Text.Utf8.lossy name
  | trailingData => "trailing data after archive"
  | incompleteFrame => "incomplete frame"
  | corruptFrame => "corrupt frame"

end Depot.Archive
