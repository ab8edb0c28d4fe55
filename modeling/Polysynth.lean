import Polysynth.Text
import Polysynth.Decimal
import Polysynth.Event
import Polysynth.Wave
import Polysynth.Song
import Polysynth.Increment
import Polysynth.Voice
import Polysynth.Handoff
import Polysynth.Mixer
import Polysynth.Score.Token
import Polysynth.Score.Header
import Polysynth.Score.Load
import Polysynth.Hold
import Polysynth.Output
import Polysynth.Player
import Polysynth.Performance
import Polysynth.Wav
import Polysynth.FileSystem
import Polysynth.Disk
import Polysynth.Session
import Polysynth.Arguments
import Polysynth.CommandLine
import Polysynth.Main
import Polysynth.Proofs.Drawing
import Polysynth.Proofs.VoiceStep
import Polysynth.Proofs.Meaning
import Polysynth.Proofs.Headroom
import Polysynth.Proofs.Mixing
import Polysynth.Proofs.Streams
import Polysynth.Proofs.LoadedSong
import Polysynth.Proofs.Splitting
import Polysynth.Proofs.PlayableSong
import Polysynth.Proofs.Engraving
import Polysynth.Proofs.Rendering
import Polysynth.Proofs.Interleaving
import Polysynth.Proofs.Holding
import Polysynth.Proofs.Playback
import Polysynth.Proofs.Wire
import Polysynth.Proofs.Delivery
import Polysynth.Proofs.MixableSong
import Polysynth.Proofs.Overwriting
import Polysynth.Proofs.LeastAttenuation
import Polysynth.Proofs.RateConversion
import Polysynth.Proofs.Pausing
import Polysynth.Proofs.TokenGrammar
import Polysynth.Proofs.Repetition
import Polysynth.Proofs.WavFiles
import Polysynth.Proofs.Faults
import Polysynth.Proofs.Unnumbered
import Polysynth.Proofs.NormalForm
import Polysynth.Proofs.NoiseCycle
import Polysynth.Proofs.TonePitch
import Polysynth.Proofs.Restart
import Polysynth.Proofs.WavLimit
import Polysynth.Proofs.VoiceState
import Polysynth.Proofs.Titles
