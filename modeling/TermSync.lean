import TermSync.Foundations.Runs
import TermSync.Foundations.Utf8
import TermSync.Foundations.Edits
import TermSync.Foundations.Scripts
import TermSync.Proofs.DeliveryProofs
import TermSync.Proofs.SavedStateProofs
import TermSync.Proofs.ShutdownProofs
import TermSync.Proofs.TerminalProofs
import TermSync.Proofs.UtilProofs
import TermSync.Proofs.ProtocolProofs
import TermSync.ClientState
import TermSync.Proofs.ConvergenceProofs
import TermSync.Proofs.RestartProofs
import TermSync.Proofs.RegistryProofs
import TermSync.Proofs.PipeProofs
import TermSync.Proofs.HistoryProofs
import TermSync.Proofs.ConcurrentProofs
import TermSync.Proofs.GapProofs
import TermSync.Proofs.IntentionProofs
import TermSync.Proofs.TypingProofs
import TermSync.Proofs.Utf8InvariantProofs
import TermSync.Proofs.AnswerProofs
import TermSync.Proofs.FilesProofs
import TermSync.Proofs.SaverLogProofs
import TermSync.Proofs.SaverStreamProofs
import TermSync.Proofs.ProgressProofs
import TermSync.Proofs.ReloadProofs
import TermSync.Proofs.IntegerFieldProofs
import TermSync.Proofs.CursorProofs
import TermSync.Proofs.EscapeProofs
import TermSync.Proofs.OperationEventProofs
import TermSync.Proofs.FreshIdProofs
import TermSync.Proofs.ByteOffsetProofs
import TermSync.Proofs.ReadsProofs
import TermSync.Proofs.RenderProofs
import TermSync.Proofs.TruthProofs
import TermSync.Proofs.RestProofs
import TermSync.Proofs.OnceProofs
import TermSync.Proofs.WireProofs
import TermSync.Proofs.FreedClientProofs
import TermSync.Proofs.WireRestProofs
import TermSync.Proofs.NormalFormProofs
import TermSync.Proofs.StorageProofs
import TermSync.Proofs.IncomingQueueProofs
