import EmentE2ee.Admin.Log
import EmentE2ee.Admin.Requests
import EmentE2ee.Admin.VerifyRun
import EmentE2ee.Crypto.SyncBodies
import EmentE2ee.Crypto.MalformedSettings
import EmentE2ee.Crypto.RepairInterleaving
import EmentE2ee.Crypto.WakeUps
import EmentE2ee.Crypto.BackupRetries
import EmentE2ee.Crypto.EncryptDance
import EmentE2ee.Crypto.FinishedFlows
import EmentE2ee.Crypto.HistoryVisibility
import EmentE2ee.Crypto.InRoomMessages
import EmentE2ee.Crypto.LoginSearch
import EmentE2ee.Crypto.MediaContents
import EmentE2ee.Crypto.MemberLists
import EmentE2ee.Crypto.JoinedRooms
import EmentE2ee.Crypto.RepairPartition
import EmentE2ee.Crypto.RoomKeyRequests
import EmentE2ee.Crypto.RoomsInterleaving
import EmentE2ee.Crypto.StoreDirs
import EmentE2ee.Crypto.SyncMarks
import EmentE2ee.Crypto.SyncOrder
import EmentE2ee.Crypto.SyntheticEdits
import EmentE2ee.Crypto.LostMessages
import EmentE2ee.Proxy.Downloads
import EmentE2ee.Proxy.FailClosed
import EmentE2ee.Proxy.LiveSessions
import EmentE2ee.Proxy.Logins
import EmentE2ee.Proxy.SyncAnswers
import EmentE2ee.Proxy.RoutePaths
import EmentE2ee.Crypto.RecordedOutcomes
import EmentE2ee.Concurrent.Locks
import EmentE2ee.Crypto.VerifyCommands
import EmentE2ee.Proxy.AccountsApart
import EmentE2ee.Proxy.IdentityKeys
import EmentE2ee.Proxy.HistoryAnswers
