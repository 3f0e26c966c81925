import Transcription.Table
import Transcription.Length.Token

/-!
# Statistics

What is written is counted for each channel and in total: notes and rests, the tokens that their
lengths are tied from, the triplets among these tokens, and the rests that were too short to write.
-/

namespace Transcription

/-- What is counted. -/
inductive Counter where
  /-- Notes written. -/
  | notes
  /-- Rests written. -/
  | rests
  /-- Rests too short to be written. -/
  | restsSkipped
  /-- Tokens in the lengths of notes. -/
  | noteSummands
  /-- Tokens in the lengths of rests. -/
  | restSummands
  /-- Triplet tokens in the lengths of notes. -/
  | noteTriplets
  /-- Triplet tokens in the lengths of rests. -/
  | restTriplets
  deriving DecidableEq

namespace Counter

/-- All counters, in the order in which a summary lists them. -/
def all : List Counter :=
  [notes, noteSummands, noteTriplets, rests, restSummands, restTriplets, restsSkipped]

/-- The name of a counter. -/
def name : Counter → String
  | notes => "notes"
  | rests => "rests"
  | restsSkipped => "rests_skipped"
  | noteSummands => "note_summands"
  | restSummands => "rest_summands"
  | noteTriplets => "note_triplets"
  | restTriplets => "rest_triplets"

/-- The heading of a counter in a summary. -/
def heading : Counter → String
  | notes => "Notes"
  | rests => "Rests"
  | restsSkipped => "Rests skipped"
  | noteSummands => "Note summands"
  | restSummands => "Rest summands"
  | noteTriplets => "Note triplets"
  | restTriplets => "Rest triplets"

/-- The counter with a name. -/
def ofName? (s : String) : Option Counter := all.find? (fun c => c.name = s)

end Counter

/-- The values of all counters. -/
structure Counters where
  /-- Notes written. -/
  notes : Int := 0
  /-- Rests written. -/
  rests : Int := 0
  /-- Rests too short to be written. -/
  restsSkipped : Int := 0
  /-- Tokens in the lengths of notes. -/
  noteSummands : Int := 0
  /-- Tokens in the lengths of rests. -/
  restSummands : Int := 0
  /-- Triplet tokens in the lengths of notes. -/
  noteTriplets : Int := 0
  /-- Triplet tokens in the lengths of rests. -/
  restTriplets : Int := 0
  deriving DecidableEq

namespace Counters

/-- The value of one counter. -/
def get (c : Counters) : Counter → Int
  | .notes => c.notes
  | .rests => c.rests
  | .restsSkipped => c.restsSkipped
  | .noteSummands => c.noteSummands
  | .restSummands => c.restSummands
  | .noteTriplets => c.noteTriplets
  | .restTriplets => c.restTriplets

/-- Raise one counter. -/
def add (c : Counters) (counter : Counter) (amount : Int) : Counters :=
  match counter with
  | .notes => { c with notes := c.notes + amount }
  | .rests => { c with rests := c.rests + amount }
  | .restsSkipped => { c with restsSkipped := c.restsSkipped + amount }
  | .noteSummands => { c with noteSummands := c.noteSummands + amount }
  | .restSummands => { c with restSummands := c.restSummands + amount }
  | .noteTriplets => { c with noteTriplets := c.noteTriplets + amount }
  | .restTriplets => { c with restTriplets := c.restTriplets + amount }

/-- The lines of a summary, one for each counter. -/
def lines (c : Counters) : List String :=
  Counter.all.map (fun counter => "#\t" ++ counter.heading ++ ": " ++ toString (c.get counter))

/-- Raising a counter changes that counter and no other. -/
theorem get_add (c : Counters) (raised read : Counter) (amount : Int) :
    (c.add raised amount).get read = c.get read + if raised = read then amount else 0 := by
  cases raised <;> cases read <;> simp [add, get]

end Counters

/-- The counters of every channel and their totals. -/
structure Statistics where
  /-- The counters of the channels on which something was counted. -/
  channels : Table Int Counters := .empty
  /-- The sums over all channels. -/
  total : Counters := {}
  deriving DecidableEq

/-- Whether a length belongs to a note or to a rest. -/
inductive Item where
  /-- A note. -/
  | note
  /-- A rest. -/
  | rest
  deriving DecidableEq

namespace Item

/-- The counter of the items themselves. -/
def count : Item → Counter
  | note => .notes
  | rest => .rests

/-- The counter of the tokens in their lengths. -/
def summands : Item → Counter
  | note => .noteSummands
  | rest => .restSummands

/-- The counter of the triplet tokens in their lengths. -/
def triplets : Item → Counter
  | note => .noteTriplets
  | rest => .restTriplets

end Item

namespace Statistics

/-- The counters of a channel. -/
def channel (s : Statistics) (channel : Int) : Counters := (s.channels.get? channel).getD {}

/-- Make a channel appear in the statistics. -/
def listed (s : Statistics) (channel : Int) : Statistics :=
  { s with channels := s.channels.insert channel (s.channel channel) }

/-- Raise a counter of a channel, and its total. -/
def add (s : Statistics) (channel : Int) (counter : Counter) (amount : Int) : Statistics where
  channels := s.channels.insert channel ((s.channel channel).add counter amount)
  total := s.total.add counter amount

/-- Count an item and the tokens of its length, but not the triplets among them. -/
def countTokens (s : Statistics) (channel : Int) (item : Item) (tokens : List String) :
    Statistics :=
  (s.add channel item.count 1).add channel item.summands tokens.length

/-- Count an item with the tokens of its length. -/
def count (s : Statistics) (channel : Int) (item : Item) (tokens : List String) : Statistics :=
  (s.countTokens channel item tokens).add channel item.triplets
    (tokens.countP Length.isTriplet)

/-- Count an item with the tokens of its length, which have to be numbers. The item and its tokens
are counted even if one of them is none. -/
def count? (s : Statistics) (channel : Int) (item : Item) (tokens : List String) :
    Statistics × Except Failure Unit :=
  match tokens.mapM Length.isTriplet? with
  | .ok _ => (s.count channel item tokens, .ok ())
  | .error e => (s.countTokens channel item tokens, .error e)

/-- The summary of all channels and of their totals. -/
def lines (s : Statistics) : List String :=
  ["# STATISTICS:"] ++
    s.channels.entries.flatMap (fun e =>
      ("# Channel " ++ toString e.1 ++ ":") :: e.2.lines) ++
    ["# TOTAL:"] ++ s.total.lines

end Statistics

end Transcription
