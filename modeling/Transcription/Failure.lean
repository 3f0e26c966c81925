import Transcription.Text.Integer
import Transcription.Text.Quoted

/-!
# Causes of failure

Every operation that can refuse its input says why with one of these causes; the wording of the
messages is in one place.
-/

namespace Transcription

open Text (quoted)

/-- Why an operation refused its input. -/
inductive Failure where
  /-- A text was read as an integer and is none. -/
  | notAnInteger (text : String)
  /-- An integer has more digits than an integer may have. -/
  | tooManyDigits (count : Nat)
  /-- An integer to be written has more digits than an integer may have. -/
  | tooLongToWrite
  /-- A length was to be divided by zero. -/
  | zeroDivisor
  /-- The resolution of a sequence has to be positive. -/
  | resolutionNotPositive (resolution : Int)
  /-- A shortest entry was asked of a table without entries. -/
  | noLengths
  /-- A length table has no entry of this many ticks. -/
  | noSuchLength (ticks : Int)
  /-- A key signature is not one of the thirty standard ones. -/
  | invalidKey (descriptor : String)
  /-- No key signature has this name. -/
  | unknownKeyName (name : String)
  /-- A pitch lies outside the range that has names. -/
  | noteOutOfRange (note : Int)
  /-- A program lies outside the range that has instruments. -/
  | programOutOfRange (program : Int)
  /-- A part was asked for on a channel that does not exist. -/
  | channelOutOfRange (channel : Int)
  /-- There is no lane with this number, or no data byte at this place. -/
  | outOfBounds
  /-- A tempo of zero microseconds per quarter note. -/
  | zeroTempo
  /-- An integer lies beyond the numbers of double precision. -/
  | tooLarge
  /-- The quotient of two integers lies beyond the numbers of double precision. -/
  | quotientTooLarge
  /-- A whole number was asked of an infinite one. -/
  | infiniteNumber
  /-- A whole number was asked of what is not a number. -/
  | notANumber
  /-- A global command that is neither a tempo nor a key. -/
  | unknownCommand (name : String)
  /-- The bytes of a document are not UTF-8. -/
  | notUtf8
  /-- A text is not a JSON document. -/
  | notJson
  /-- Arrays and objects are nested too deep; the innermost one is of this kind. -/
  | tooDeep (kind : String)
  /-- A part of a document is not an object. -/
  | notObject (place : String)
  /-- A part of a document is not an array. -/
  | notArray (place : String)
  /-- A part of a document is not an integer. -/
  | notInteger (place : String)
  /-- An integer of a document is out of its range. -/
  | outOfRange (place : String) (low high : Int)
  /-- A channel of a document is not named by a number. -/
  | notAChannel (key : String)
  /-- A tempo of a document is not a positive number. -/
  | tempoNotPositive (place : String)
  /-- A key of a document is not a text, or an empty one. -/
  | keyNotText (place : String)
  /-- Settings name options that do not exist. -/
  | unknownSettings (keys : List String)
  /-- Settings ask for an output format that does not exist. -/
  | formatUnknown
  /-- Settings have an object or an array for the name of the output format. -/
  | formatNotText (kind : String)
  /-- The shortest rest of the settings is not an integer. -/
  | minRestNotInteger
  /-- The shortest rest of the settings is not positive. -/
  | minRestTooSmall
  /-- An option of the settings is neither true nor false. -/
  | notBoolean (place : String)
  /-- There is no output format of this name. -/
  | unknownFormat (name : String)
  /-- A slice cannot begin before the sequence. -/
  | negativeBegin (tick : Int)
  /-- A slice has to end after it begins. -/
  | endNotAfterBegin (tick begin : Int)
  /-- A frozen slice cannot be changed. -/
  | frozen (begin tick : Int)
  /-- A slice was asked for where there is none. -/
  | noSlices
  /-- A note is to be written that has no length yet. -/
  | lengthMissing
  /-- A warning has to be of one of the known kinds. -/
  | unknownWarning (kind : String)
  /-- A file ends too early. -/
  | endOfFile
  /-- A file does not begin with the header of a MIDI file. -/
  | noFileHeader
  /-- A track does not begin with the header of a track. -/
  | noTrackHeader
  /-- An event leaves out the status byte and none came before. -/
  | noRunningStatus
  /-- A message is longer than any message may be. -/
  | messageTooLong (length : Nat)
  /-- A status byte that stands for nothing. -/
  | undefinedStatus (status : Nat)
  /-- A data byte of a channel or system message has its high bit set. -/
  | badDataByte
  /-- A data byte of an exclusive message has its high bit set. -/
  | badExclusiveByte
  /-- A message has more data bytes than its kind allows. -/
  | wrongByteCount (kind : String)
  /-- A value of a meta message is larger than it may be. -/
  | attributeOutOfRange (high : Nat)
  /-- A time code has no known frame rate. -/
  | noSuchFrameRate (rate : Nat)
  /-- The binary logarithm of a denominator does not come out whole. -/
  | denominatorNotPower
  /-- The two bytes of a key signature message name no key. -/
  | badKeyBytes (key : Int) (mode : Nat)
  /-- The tracks of the file are independent sequences. -/
  | independentTracks
  /-- There is no file at this path. -/
  | noSuchFile (path : String)
  /-- There is a directory at this path. -/
  | isDirectory (path : String)
  /-- This path leads through something that is no directory. -/
  | notDirectory (path : String)
  /-- There is something at this path where a directory is to be made. -/
  | alreadyExists (path : String)
  /-- This path, or a name in it, is too long. -/
  | nameTooLong (path : String)
  /-- A path holds the null character. -/
  | nullInPath
  /-- A name in a path holds a surrogate that no byte stands for, at this place. -/
  | byteless (place point : Nat)
  /-- A name in a path holds surrogates that begin with one that no byte stands for. -/
  | bytelessRun (first last : Nat)
  /-- A path begins at the home directory of a user who has none. -/
  | noHome
  /-- Two dashes were given as the path of the output. -/
  | outputNotPath
  /-- Two dashes were given as the path of the settings. -/
  | settingsNotPath
  deriving DecidableEq

namespace Failure

/-- The kinds of failures that a caller can tell apart. -/
inductive Kind where
  /-- A value is not one of those that are expected. -/
  | value
  /-- A table has no such key. -/
  | key
  /-- A list has no such place. -/
  | index
  /-- A value is of another type than is needed. -/
  | type
  /-- A value lacks what is asked of it. -/
  | attribute
  /-- A number is divided by zero. -/
  | division
  /-- A number is too large. -/
  | overflow
  /-- Something cannot be done in this state. -/
  | state
  /-- The bytes end too early. -/
  | ending
  /-- A file cannot be read or written. -/
  | system
  /-- The key of a file is none. -/
  | fileKey
  deriving DecidableEq

/-- The kind of a failure. What is not of another kind is a matter of values. -/
def kind : Failure → Kind
  | noSuchLength _ | noSuchFrameRate _ => .key
  | outOfBounds => .index
  | formatNotText _ | lengthMissing | settingsNotPath => .type
  | outputNotPath => .attribute
  | zeroDivisor | zeroTempo => .division
  | tooLarge | quotientTooLarge | infiniteNumber => .overflow
  | frozen .. | tooDeep _ | noHome => .state
  | endOfFile => .ending
  | noFileHeader | noTrackHeader | noRunningStatus | messageTooLong _ | undefinedStatus _
  | badDataByte | noSuchFile _ | isDirectory _ | notDirectory _ | alreadyExists _
  | nameTooLong _ => .system
  | badKeyBytes .. => .fileKey
  | _ => .value

/-- How much of a quoted text is shown where an integer was expected. -/
def shownLength : Nat := 200

/-- What went wrong at a path, with the number of the system's error. -/
def pathMessage (number : Nat) (what path : String) : String :=
  s!"[Errno {number}] {what}: " ++ quoted path

/-- The wording of a refusal. -/
def message : Failure → String
  | notAnInteger text =>
    "invalid literal for int() with base 10: " ++
      String.ofList ((quoted text).toList.take shownLength)
  | tooManyDigits count =>
    s!"Exceeds the limit ({Text.maxDigits} digits) for integer string conversion: value has " ++
      s!"{count} digits; use sys.set_int_max_str_digits() to increase the limit"
  | tooLongToWrite =>
    s!"Exceeds the limit ({Text.maxDigits} digits) for integer string conversion; " ++
      "use sys.set_int_max_str_digits() to increase the limit"
  | zeroDivisor => "integer division or modulo by zero"
  | resolutionNotPositive resolution => s!"resolution must be positive, got {resolution}"
  | noLengths => "min() arg is an empty sequence"
  | noSuchLength ticks => toString ticks
  | invalidKey descriptor => "invalid key signature " ++ quoted descriptor
  | unknownKeyName name => "unknown key signature " ++ quoted name
  | noteOutOfRange note => s!"note must be 0-127, got {note}"
  | programOutOfRange program => s!"program must be 0-127, got {program}"
  | channelOutOfRange channel => s!"channel must be 0-15, got {channel}"
  | outOfBounds => "list index out of range"
  | zeroTempo => "float division by zero"
  | tooLarge => "int too large to convert to float"
  | quotientTooLarge => "integer division result too large for a float"
  | infiniteNumber => "cannot convert float infinity to integer"
  | notANumber => "cannot convert float NaN to integer"
  | unknownCommand name => "unknown global command " ++ quoted name
  | notUtf8 => "the file is not UTF-8 text"
  | notJson => "the file is not a JSON document"
  | tooDeep kind =>
    "maximum recursion depth exceeded while decoding a JSON " ++ kind ++ " from a unicode string"
  | notObject place => place ++ " must be an object"
  | notArray place => place ++ " must be an array"
  | notInteger place => place ++ " must be an integer"
  | outOfRange place low high => place ++ s!" must be in [{low}, {high}]"
  | notAChannel key => "channels key " ++ quoted key ++ " must be a channel number"
  | tempoNotPositive place => place ++ " must be a positive number"
  | keyNotText place => place ++ " must be a non-empty string"
  | unknownSettings keys => "unknown config keys: " ++ ", ".intercalate keys
  | formatUnknown => "format must be one of: alda"
  | formatNotText kind => s!"unhashable type: '{kind}'"
  | minRestNotInteger => "min_rest_ticks must be an integer"
  | minRestTooSmall => "min_rest_ticks must be >= 1"
  | notBoolean place => place ++ " must be true or false"
  | unknownFormat name =>
    "unknown output format " ++ quoted name ++ "; expected one of: alda"
  | negativeBegin tick => s!"begin_tick must be >= 0, got {tick}"
  | endNotAfterBegin tick begin => s!"end tick {tick} must be after begin tick {begin}"
  | frozen begin tick => s!"Slice(begin={begin}, end={tick}) is frozen"
  | noSlices => "no slices to search"
  | lengthMissing => "'>' not supported between instances of 'NoneType' and 'int'"
  | unknownWarning kind => "unknown warning kind " ++ quoted kind
  | endOfFile => ""
  | noFileHeader => "MThd not found. Probably not a MIDI file"
  | noTrackHeader => "no MTrk header at start of track"
  | noRunningStatus => "running status without last_status"
  | messageTooLong length => s!"Message length {length} exceeds maximum length 1000000"
  | undefinedStatus status =>
    "undefined status byte 0x" ++ String.ofList (Text.hexDigits 2 status)
  | badDataByte => "data byte must be in range 0..127"
  | badExclusiveByte => "data byte must be in range 0..127"
  | wrongByteCount kind => s!"wrong number of bytes for {kind} message"
  | attributeOutOfRange high => s!"attribute must be in range 0..{high}"
  | noSuchFrameRate rate => toString rate
  | denominatorNotPower => "denominator must be a power of 2"
  | badKeyBytes key mode =>
    let size := key.natAbs
    if key < 7 then s!"Could not decode key with {size} flats and mode {mode}"
    else s!"Could not decode key with {key} sharps and mode {mode}"
  | independentTracks => "asynchronous (type 2) MIDI files are not supported"
  | noSuchFile path => pathMessage 2 "No such file or directory" path
  | isDirectory path => pathMessage 21 "Is a directory" path
  | notDirectory path => pathMessage 20 "Not a directory" path
  | alreadyExists path => pathMessage 17 "File exists" path
  | nameTooLong path => pathMessage 36 "File name too long" path
  | nullInPath => "embedded null byte"
  | byteless place point =>
    "'utf-8' codec can't encode character '" ++ String.ofList (Text.unicodeEscape point) ++
      s!"' in position {place}: surrogates not allowed"
  | bytelessRun first last =>
    s!"'utf-8' codec can't encode characters in position {first}-{last}: surrogates not allowed"
  | noHome => "Could not determine home directory."
  | outputNotPath => "'list' object has no attribute 'expanduser'"
  | settingsNotPath => "expected str, bytes or os.PathLike object, not list"

end Failure

end Transcription
