import BBNotifier.Foundation.Run
import BBNotifier.Foundation.Segmentation
import BBNotifier.Foundation.RecencyMap
import BBNotifier.Foundation.Base64
import BBNotifier.Foundation.CipherBlockChaining
import BBNotifier.Foundation.Pkcs7
import BBNotifier.Foundation.LittleEndian
import BBNotifier.Qt.QString
import BBNotifier.Qt.Memory
import BBNotifier.Qt.QSettings
import BBNotifier.Crypto.StreamTransformationFilter
import BBNotifier.Crypto.AESWrapper
import BBNotifier.Server.ServerSocket
import BBNotifier.Server.ListenerSocket
import BBNotifier.Server.Framing
import BBNotifier.Server.Packet
import BBNotifier.Server.Delivery
import BBNotifier.Server.TamperedVector
import BBNotifier.Item.NotificationItem
import BBNotifier.Item.Serialization
import BBNotifier.Server.IncomingMessage
import BBNotifier.Settings.Settings
import BBNotifier.Settings.SettingsDialog
import BBNotifier.Settings.SavedSettings
import BBNotifier.Settings.Autodiscovery
import BBNotifier.Window.MainWnd
import BBNotifier.Window.CallHistory
import BBNotifier.Window.HistoryRefinement
import BBNotifier.Window.TrayIcon
import BBNotifier.Server.PacketStatus
import BBNotifier.Window.ListLengths
import BBNotifier.Window.NewNotification
import BBNotifier.Crypto.Password
import BBNotifier.Foundation.Truncation
import BBNotifier.Item.DecodedImage
import BBNotifier.Item.NormalizeIcon
import BBNotifier.Server.Registry
import BBNotifier.Settings.StoredKey
import BBNotifier.Program.Composition
import BBNotifier.Program.Connections
import BBNotifier.Program.EndToEnd
import BBNotifier.Cryptopp.Base64Encoder
import BBNotifier.Cryptopp.CBCDecryption
import BBNotifier.Cryptopp.Rijndael
import BBNotifier.Cryptopp.StreamFilter
import BBNotifier.Program.Isolation
import BBNotifier.Program.Availability
import BBNotifier.Program.Restarts
import BBNotifier.Window.Delegates
import BBNotifier.Window.Alerts
import BBNotifier.Settings.Form
import BBNotifier.Item.IconContrast
import BBNotifier.Cryptopp.RijndaelStandard
