import MumbleServer.Ocb2Buffers
import MumbleServer.SecureWindow
import MumbleServer.NonceUse
import MumbleServer.LegacyChannel
import MumbleServer.LegacyLate
import MumbleServer.LegacyReplay
import MumbleServer.StoredGroups
import MumbleServer.AclMonotone
import MumbleServer.Accounts
import MumbleServer.AdminAccounts
import MumbleServer.ExternalIdentity
import MumbleServer.RateLimit
import MumbleServer.UdpIngress
import MumbleServer.Transitions
import MumbleServer.ReservedSlot
import MumbleServer.InitialSync
import MumbleServer.ModerationRace
import MumbleServer.UserStateEcho
import MumbleServer.IncarnationsApart
import MumbleServer.RejectFinal
import MumbleServer.VoiceRace
import MumbleServer.VoiceDispatch
import MumbleServer.BanStore
import MumbleServer.MessageReturn
import MumbleServer.MessageDamage
import MumbleServer.EditHandlers
import MumbleServer.LinkUpdates
import MumbleServer.SessionIDs
import MumbleServer.RollbackComplete
import MumbleServer.LoginAlone
import MumbleServer.Transcoding
import MumbleServer.LinkIncarnations
import MumbleServer.WriteReceipts
import MumbleServer.TempChannels
import MumbleServer.Framing
