import Vinezombie.Client.AuthChallenges
import Vinezombie.Client.AuthMechs
import Vinezombie.Client.AuthOrder
import Vinezombie.Client.AuthWire
import Vinezombie.Client.BlockingRecv
import Vinezombie.Client.CapReply
import Vinezombie.Client.Handlers
import Vinezombie.Client.Logic
import Vinezombie.Client.NickInvalid
import Vinezombie.Client.OneshotLifetime
import Vinezombie.Client.Parker
import Vinezombie.Client.QueueClock
import Vinezombie.Client.QueueOrder
import Vinezombie.Client.RegisterAccount
import Vinezombie.Client.RegisterDeletes
import Vinezombie.Client.RegisterLogin
import Vinezombie.Client.RegisterOrder
import Vinezombie.Client.RegisterRequests
import Vinezombie.Client.RunQueue
import Vinezombie.Client.RunReads
import Vinezombie.Client.RunReplies
import Vinezombie.Client.RunResults
import Vinezombie.Client.RunWrites
import Vinezombie.Client.SuffixChecked
import Vinezombie.Client.SuffixPieces
import Vinezombie.Client.SuffixSeq
import Vinezombie.Message.ArgsEdits
import Vinezombie.Message.BytesLeft
import Vinezombie.Message.Ctcp
import Vinezombie.Message.DisplaySecrets
import Vinezombie.Message.DisplayWritten
import Vinezombie.Message.ReaderEnd
import Vinezombie.Message.Serde
import Vinezombie.Message.SourceMerged
import Vinezombie.Message.SourceText
import Vinezombie.Message.TagsSegments
import Vinezombie.Message.TokioChunks
import Vinezombie.Message.TokioLines
import Vinezombie.State.ModeTypesText
import Vinezombie.State.StatusModes
import Vinezombie.Strings.Casemap
import Vinezombie.Strings.Invariants
import Vinezombie.Strings.Secrecy
import Vinezombie.Strings.SecretBufRuns
import Vinezombie.Strings.SecretChunks
import Vinezombie.Strings.SharingRuns
import Vinezombie.Strings.SplitterCalls
import Vinezombie.Strings.Utf8Cache
import Vinezombie.Util.FlatMapEdits
import Vinezombie.Util.FlatMapForget
import Vinezombie.Util.FlatMapLen
import Vinezombie.Util.FlatMapSlot
