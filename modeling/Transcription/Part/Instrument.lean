import Transcription.Failure

/-!
# Instruments

Each of the 128 programs stands for one instrument of the notation. A part plays one program on one
channel; its label is the name of the instrument with the number of the channel.
-/

namespace Transcription

/-- The number of channels. -/
abbrev channelCount : Nat := 16

/-- A channel of a sequence that can be written. -/
abbrev Channel := Fin channelCount

/-- A program, which stands for an instrument. -/
abbrev Program := Fin 128

/-- The instruments by program. -/
def instrumentNames : List String :=
  ["piano", "midi-bright-acoustic-piano", "midi-electric-grand-piano", "midi-honky-tonk-piano",
    "midi-electric-piano-1", "midi-electric-piano-2", "harpsichord", "clavinet", "celesta",
    "glockenspiel", "music-box", "vibraphone", "marimba", "xylophone", "tubular-bells", "dulcimer",
    "midi-drawbar-organ", "midi-percussive-organ", "midi-rock-organ", "organ", "midi-reed-organ",
    "accordion", "harmonica", "midi-tango-accordion", "guitar", "midi-acoustic-guitar-steel",
    "midi-electric-guitar-jazz", "electric-guitar-clean", "midi-electric-guitar-palm-muted",
    "electric-guitar-overdrive", "electric-guitar-distorted", "electric-guitar-harmonics",
    "acoustic-bass", "electric-bass", "electric-bass-pick", "fretless-bass", "midi-bass-slap",
    "midi-bass-pop", "midi-synth-bass-1", "midi-synth-bass-2", "violin", "viola", "cello",
    "contrabass", "midi-tremolo-strings", "midi-pizzicato-strings", "harp", "timpani",
    "midi-string-ensemble-1", "midi-string-ensemble-2", "midi-synth-strings-1",
    "midi-synth-strings-2", "midi-choir-aahs", "midi-voice-oohs", "midi-synth-voice",
    "midi-orchestra-hit", "trumpet", "trombone", "tuba", "midi-muted-trumpet", "french-horn",
    "midi-brass-section", "midi-synth-brass-1", "midi-synth-brass-2", "soprano-sax", "alto-sax",
    "tenor-sax", "bari-sax", "oboe", "english-horn", "bassoon", "clarinet", "piccolo", "flute",
    "recorder", "pan-flute", "bottle", "shakuhachi", "whistle", "ocarina", "square", "sawtooth",
    "calliope", "chiff", "charang", "midi-solo-vox", "midi-fifths", "midi-bass-and-lead",
    "midi-pad-new-age", "midi-pad-warm", "midi-pad-polysynth", "midi-pad-choir", "midi-pad-bowed",
    "midi-pad-metallic", "midi-pad-halo", "midi-pad-sweep", "midi-fx-ice-rain", "midi-soundtrack",
    "midi-crystal", "midi-atmosphere", "midi-brightness", "midi-goblins", "midi-echoes",
    "midi-sci-fi", "sitar", "banjo", "shamisen", "koto", "kalimba", "bagpipes", "midi-fiddle",
    "shanai", "midi-tinkle-bell", "midi-agogo", "steel-drums", "midi-woodblock", "midi-taiko-drum",
    "midi-melodic-tom", "midi-synth-drum", "midi-reverse-cymbal", "midi-guitar-fret-noise",
    "midi-breath-noise", "midi-seashore", "midi-bird-tweet", "midi-telephone-ring",
    "midi-helicopter", "midi-applause", "midi-gunshot"]

/-- There is one instrument for each program. -/
theorem length_instrumentNames : instrumentNames.length = 128 := by decide +kernel

/-- The instrument of a program. -/
def Program.instrument (p : Program) : String := instrumentNames.getD p.val ""

/-- The program with a number. -/
def Program.ofInt (n : Int) : Except Failure Program :=
  if h : 0 ≤ n ∧ n ≤ 127 then .ok ⟨n.toNat, by omega⟩ else .error (.programOutOfRange n)

/-- The channel with a number. -/
def Channel.ofInt (n : Int) : Except Failure Channel :=
  if h : 0 ≤ n ∧ n ≤ 15 then .ok ⟨n.toNat, by simp only [channelCount]; omega⟩
  else .error (.channelOutOfRange n)

/-- The label of a program on a channel with any number. -/
def Program.labelOn (p : Program) (channel : Int) : String := s!"{p.instrument}-ch{channel}"

end Transcription
