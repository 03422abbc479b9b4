import Dse.Lib.Run
import Dse.Basic
import Dse.Lib.Bytes
import Dse.Lib.Word
import Dse.Wallet.Contract
import Dse.Wallet.Book
import Dse.Wallet.Chain
import Dse.Wallet.Proofs.LoopProofs
import Dse.Wallet.Proofs.TxProofs
import Dse.Wallet.Proofs.AccountProofs
import Dse.Wallet.Proofs.WindowProofs
import Dse.Wallet.Proofs.LockProofs
import Dse.Wallet.Proofs.SolvencyProofs
import Dse.Lib.Ranges
import Dse.Node.Commit
import Dse.Node.Storage
import Dse.Node.Indexer
import Dse.Node.Proofs.StorageProofs
import Dse.Node.Proofs.StepProofs
import Dse.Node.Proofs.HashProofs
import Dse.Node.Proofs.PeerProofs
import Dse.Node.Proofs.GateProofs
import Dse.Node.Proofs.ConflictProofs
import Dse.Node.Proofs.SendProofs
import Dse.Peers.Proofs.ExchangeProofs
import Dse.Peers.Proofs.RoleProofs
import Dse.Peers.Proofs.StageProofs
import Dse.Peers.Proofs.AgreementProofs
import Dse.Node.Proofs.HistoryProofs
import Dse.Lib.Serial
import Dse.Lib.Survival
import Dse.Node.Database
import Dse.Node.Proofs.DatabaseProofs
import Dse.Node.Proofs.ForwardProofs
import Dse.Node.Proofs.LoadProofs
import Dse.Node.Proofs.OrderProofs
import Dse.Node.Proofs.SerialProofs
import Dse.Wallet.Proofs.AuthorityProofs
import Dse.Wallet.Proofs.ExpiryProofs
import Dse.Wallet.Proofs.ResubmitProofs
import Dse.Lib.Batch
import Dse.Wallet.Batch
import Dse.Wallet.Proofs.BatchProofs
import Dse.Wallet.Proofs.CalldataProofs
import Dse.Wallet.Proofs.ReplayProofs
import Dse.Node.Proofs.SearchProofs
import Dse.Lib.Broadcast
import Dse.Lib.Codec
import Dse.Node.Daemon
import Dse.Node.Proofs.AnswerProofs
import Dse.Node.Proofs.BindingProofs
import Dse.Node.Proofs.CallerProofs
import Dse.Node.Proofs.GossipProofs
import Dse.Node.Proofs.QueryProofs
import Dse.Node.Proofs.WireProofs
import Dse.Node.Proofs.OneSendProofs
import Dse.Node.Proofs.StandingProofs
import Dse.Node.Proofs.ValidatorProofs
import Dse.Node.Proofs.RotationProofs
import Dse.Wallet.Proofs.RangeProofs
import Dse.Wallet.Proofs.SignatureProofs
import Dse.Wallet.Proofs.FramingProofs
import Dse.Wallet.Proofs.MoneyProofs
import Dse.Wallet.Proofs.MalformedProofs
import Dse.Lib.Linear
import Dse.Node.Sections
import Dse.Node.Finders
import Dse.Node.Proofs.SectionsProofs
import Dse.Node.Proofs.FindersProofs
import Dse.Node.Proofs.ReplyProofs
import Dse.Node.Proofs.RestartProofs
import Dse.Node.Proofs.ProvenanceProofs
import Dse.Peers.Proofs.OpeningProofs
import Dse.Lib.Pending
import Dse.Node.Dht
import Dse.Node.Proofs.DhtProofs
import Dse.Lib.Reentry
import Dse.Wallet.Reentry
import Dse.Wallet.Proofs.ReentryProofs
import Dse.Lib.Reach
import Dse.Node.Proofs.ProgressProofs
import Dse.Peers.Proofs.CourseProofs
import Dse.Peers.Proofs.CompletionProofs
import Dse.Peers.Proofs.DeadlockProofs
import Dse.Wallet.Proofs.StuckProofs
import Dse.Wallet.Proofs.EpochProofs
import Dse.Wallet.Proofs.HonourProofs
import Dse.Lib.Turns
import Dse.Peers.Proofs.AlternationProofs
import Dse.Node.Proofs.SpreadProofs
import Dse.Lib.Assembly
import Dse.Peers.Community
import Dse.Peers.Proofs.CommunityProofs
