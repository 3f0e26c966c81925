import Transcription.CommandLine.Run
import Transcription.Main
import Transcription.Proofs.Length.Ties
import Transcription.Proofs.Part.Registry
import Transcription.Proofs.Reading.Bare
import Transcription.Proofs.Reading.Manner
import Transcription.Proofs.Reading.Tally
import Transcription.Proofs.Reading.Tempos
import Transcription.Proofs.Recording.Playing
import Transcription.Proofs.Score.Filled
import Transcription.Proofs.Score.Folding
import Transcription.Proofs.Score.Leaving
import Transcription.Proofs.Score.Lengths
import Transcription.Proofs.Score.Parts
import Transcription.Proofs.Score.Rewriting
import Transcription.Proofs.Score.Total
import Transcription.Proofs.Slice.Frozen
import Transcription.Proofs.Slice.Lookups
import Transcription.Proofs.Slice.Releases
import Transcription.Proofs.Timing.Drift
import Transcription.Proofs.Timing.Markers
