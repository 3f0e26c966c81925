import Transcription.Score.Basic

/-!
# Rests in a score

A part fills a gap with a rest whose length is tied from rest lengths. What is smaller than the
shortest of these is left out, so the rest may fall short of the gap.
-/

namespace Transcription.Score

/-- The warning that a gap is too short for any rest. -/
def restWarning (id : PartId) (ticks tick : Int) : Warning where
  kind := .unrepresentableDuration
  message := s!"rest of {ticks} ticks too small to be handled"
  channel := some id.channel.val
  tick := some tick

/-- Find the rest of a part for a gap of some ticks. A rest sets the length of the next note, and a
gap that is too short for any rest is noticed. -/
def rest (p : Plan) (id : PartId) (ticks tick : Int) (s : Score) : Option String × Score :=
  if ticks ≤ 0 then (none, s)
  else
    let channel : Int := id.channel.val
    let summands := p.tables.restSummands ticks
    if summands = [] then
      let s := s.warn (restWarning id ticks tick)
      (none, { s with statistics := s.statistics.add channel .restsSkipped 1 })
    else
      let length := LengthTable.text summands
      let s := { s with
        statistics := s.statistics.count channel .rest (summands.map Prod.snd) }
      (some length, s.modifyPart id (fun part => { part with length }))

end Transcription.Score
