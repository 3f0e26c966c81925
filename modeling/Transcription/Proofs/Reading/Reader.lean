import Transcription.Proofs.Length.Tokens
import Transcription.Score.Line
import Transcription.Key.Spelling

/-!
# Reading the lines of a score

A reader goes through the lines of a score knowing nothing but the lines before. It keeps for each
part the octave and the length that the next note inherits, and how far the part has come; it knows
the key signature and the markers. Of every chord it hears which pitches sound and for how long.
-/

namespace Transcription

/-! ### Pitches by their names -/

namespace Spelling

/-- The place of a letter in the circle of fifths, counted from C. -/
def fifthsOf? : Char → Option Int
  | 'f' => some (-1)
  | 'c' => some 0
  | 'g' => some 1
  | 'd' => some 2
  | 'a' => some 3
  | 'e' => some 4
  | 'b' => some 5
  | _ => none

/-- What a key signature makes of a letter: sharps come in order from F on, flats from B on. -/
def keyShift (fifths letter : Int) : Int :=
  if letter + 2 ≤ fifths then 1 else if fifths ≤ letter - 6 then -1 else 0

/-- What the signs after a letter make of it. Without signs the key signature counts. -/
def signShift? (fifths letter : Int) : List Char → Option Int
  | [] => some (keyShift fifths letter)
  | ['_'] => some 0
  | ['+'] => some 1
  | ['-'] => some (-1)
  | _ => none

/-- The pitch of a name in an octave, under a key signature. -/
def pitch? (fifths : Int) (name : String) (octave : Int) : Option Int :=
  match name.toList with
  | [] => none
  | letter :: signs => do
    let place ← fifthsOf? letter
    let shift ← signShift? fifths place signs
    return 12 * (octave + 1) + 7 * place % 12 + shift

private theorem pitch?_names : ∀ (k : Fin 15) (n : Fin 12),
    pitch? ((k.val : Int) - 7) ((names ((k.val : Int) - 7)).getD n.val "") (-1) =
      some (n.val : Int) := by
  decide +kernel

private theorem pitch?_octave (fifths : Int) (name : String) (octave : Int) :
    pitch? fifths name octave =
      (pitch? fifths name (-1)).map (fun n => 12 * (octave + 1) + n) := by
  unfold pitch?
  split
  · rfl
  · rename_i letter signs _
    cases hplace : fifthsOf? letter with
    | none => rfl
    | some place =>
      cases hshift : signShift? fifths place signs with
      | none => simp [hshift]
      | some shift =>
        simp only [Option.bind_eq_bind, Option.bind_some, hshift, Option.pure_def,
          Option.map_some, Option.some.injEq]
        omega

/-- A pitch is read back from its name and its octave. -/
theorem pitch?_name (k : KeySignature) (note : Int) :
    pitch? k.fifths (name k.fifths note) (octave note) = some note := by
  have hlow := k.low
  have hhigh := k.high
  have hclass := Int.emod_lt_of_pos note (by decide : (0 : Int) < 12)
  have hnonneg := Int.emod_nonneg note (by decide : (12 : Int) ≠ 0)
  have h := pitch?_names ⟨(k.fifths + 7).toNat, by omega⟩ ⟨(note % 12).toNat, by omega⟩
  have hfifths : (((k.fifths + 7).toNat : Nat) : Int) - 7 = k.fifths := by omega
  have hnote : (((note % 12).toNat : Nat) : Int) = note % 12 := by omega
  simp only [hfifths, hnote] at h
  rw [pitch?_octave, name, h, octave, Option.map_some, Option.some.injEq]
  omega

end Spelling

/-! ### What a reader knows and hears -/

/-- What a reader knows of a part. -/
structure Voice where
  /-- The octave of the next note. -/
  octave : Int := 4
  /-- The length of the next note, unless it has its own. -/
  length : String := "4"
  /-- The ticks that the part has sounded or rested, or those of the marker it jumped to with what
  came after. -/
  position : Int := 0
  deriving DecidableEq

/-- What sounds in a chord, with its length as text and in ticks. -/
inductive Sound where
  /-- A note. -/
  | note (pitch : Int) (length : String) (ticks : Int)
  /-- A rest. -/
  | rest (length : String) (ticks : Int)
  deriving DecidableEq

/-- The ticks of a sound. -/
def Sound.ticks : Sound → Int
  | note _ _ ticks => ticks
  | rest _ ticks => ticks

/-- A chord as a reader hears it. -/
structure Heard where
  /-- The part that sounds. -/
  part : PartId
  /-- How far the part has come at the start of the chord. -/
  start : Int
  /-- What sounds. -/
  sounds : List Sound
  deriving DecidableEq

/-- What a reader knows after some lines, and the chords it has heard. -/
structure Reading where
  /-- The declared parts, in order of declaration. -/
  declared : List PartId := []
  /-- What is known of each part. -/
  voice : PartId → Voice := fun _ => {}
  /-- The selected part. -/
  current : Option PartId := none
  /-- The key signature in force. -/
  key : KeySignature := .cMajor
  /-- How far a part had come at each marker, the last marker first. -/
  marks : List (Int × Int) := []
  /-- The chords heard. -/
  heard : List Heard := []

namespace Reading

/-- Change what is known of a part. -/
def update (R : Reading) (id : PartId) (v : Voice) : Reading :=
  { R with voice := fun id' => if id' = id then v else R.voice id' }

/-- How far a part had come at a marker. -/
def mark? (R : Reading) (slice : Int) : Option Int :=
  (R.marks.find? (fun m => m.1 = slice)).map Prod.snd

end Reading

/-! ### Reading lines -/

/-- Rest for a length, which is then that of the next note. -/
def Voice.rest? (t : LengthTables) (length : String) (v : Voice) : Option Voice :=
  (t.rests.ticks? length).map (fun ticks =>
    { v with length, position := v.position + ticks })

/-- Read the elements of a chord. Each note sets the octave and the length of the next one, and so
does a rest the length. -/
def Voice.sounds? (t : LengthTables) (fifths : Int) : List Element → Voice →
    Option (List Sound × Voice)
  | [], v => some ([], v)
  | .note shift name length :: rest, v => do
    let octave := v.octave + shift
    let length := length.getD v.length
    let pitch ← Spelling.pitch? fifths name octave
    let ticks ← t.notes.ticks? length
    let (sounds, v) ← sounds? t fifths rest { v with octave, length }
    return (.note pitch length ticks :: sounds, v)
  | .rest length :: rest, v => do
    let ticks ← t.rests.ticks? length
    let (sounds, v) ← sounds? t fifths rest { v with length }
    return (.rest length ticks :: sounds, v)

namespace Reading

/-- Read the jump before a chord. -/
def jump? (R : Reading) (jump : Option Int) (v : Voice) : Option Voice :=
  match jump with
  | none => some v
  | some slice => (R.mark? slice).map (fun position => { v with position })

/-- Read the rest before a chord. -/
def gap? (t : LengthTables) (gap : Option String) (v : Voice) : Option Voice :=
  match gap with
  | none => some v
  | some length => v.rest? t length

/-- Read a chord of the selected part. The part goes on after the shortest sound. -/
def chord? (t : LengthTables) (R : Reading) (line : ChordLine) : Option Reading := do
  let id ← R.current
  let v ← R.jump? line.jump (R.voice id)
  let v ← gap? t line.gap v
  let (sounds, v') ← v.sounds? t R.key.fifths line.elements
  let shortest ← (sounds.map Sound.ticks).min?
  return { R.update id { v' with position := v.position + shortest } with
    heard := R.heard ++ [⟨id, v.position, sounds⟩] }

/-- Put the key signatures among global settings in force. -/
def settings (R : Reading) (settings : List GlobalSetting) : Reading :=
  settings.foldl
    (fun R setting => match setting with
      | .key key => { R with key }
      | .tempo _ => R)
    R

/-- Read a line. A part is declared once and has to be declared before it is selected. -/
def line? (t : LengthTables) (R : Reading) : Line → Option Reading
  | .blank => some R
  | .comment _ => some R
  | .globals settings => some (R.settings settings)
  | .declare id =>
    if id ∈ R.declared then none
    else some { R.update id {} with declared := R.declared ++ [id], current := some id }
  | .select id => if id ∈ R.declared then some { R with current := some id } else none
  | .marker slice =>
    R.current.map (fun id => { R with marks := (slice, (R.voice id).position) :: R.marks })
  | .rest length => do
    let id ← R.current
    let v ← (R.voice id).rest? t length
    return R.update id v
  | .chord line => R.chord? t line

/-- Read lines one after the other. -/
def lines? (t : LengthTables) (R : Reading) (lines : List Line) : Option Reading :=
  lines.foldlM (fun R line => R.line? t line) R

/-- Read the lines of a score from the start. -/
def ofLines? (t : LengthTables) (lines : Array Line) : Option Reading := lines? t {} lines.toList

/-- One more line is read after the others. -/
theorem ofLines?_push (t : LengthTables) (lines : Array Line) (line : Line) :
    ofLines? t (lines.push line) = (ofLines? t lines).bind (fun R => R.line? t line) := by
  simp [ofLines?, lines?, Array.toList_push, List.foldlM_append]

end Reading

end Transcription
