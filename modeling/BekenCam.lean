import BekenCam.FlashKvPowerLoss
import BekenCam.FlashKvConcurrent
import BekenCam.ConfigMac
import BekenCam.RingBufferSpsc
import BekenCam.UartSafety
import BekenCam.Wpa2Forgery
import BekenCam.Wpa2Slots
import BekenCam.ApInterleaving
import BekenCam.RwMsgOrder
import BekenCam.ScanOwnership
import BekenCam.PromiseSafety
import BekenCam.UartSwapSafety
import BekenCam.DhcpLeases
import BekenCam.CameraStream
import BekenCam.HttpChunking
import BekenCam.HttpTranscript
import BekenCam.TelnetFraming
import BekenCam.ConfigRoundTrip
import BekenCam.ConfigRadio
import BekenCam.BkloaderImage
import BekenCam.WebUpdates
import BekenCam.Wpa2KeyWrap
import BekenCam.Wpa2Digests
import BekenCam.TlvWalk
import BekenCam.TelnetConsole
import BekenCam.HttpLimits
import BekenCam.HttpContentLength
import BekenCam.HttpAnswer
import BekenCam.FlashKvForeach
import BekenCam.ConfigUnknown
import BekenCam.IntcModel
import BekenCam.IntcTable
import BekenCam.TimeoutRuns
import BekenCam.ScanMerge
import BekenCam.ApElements
import BekenCam.DhcpOptions
import BekenCam.XmodemOverrun
import BekenCam.XmodemCancel
import BekenCam.IntcDispatch
import BekenCam.CrcTables
import BekenCam.SoftRtc
import BekenCam.FlashCommands
import BekenCam.CameraWrap
import BekenCam.ShellModel
import BekenCam.ShellCompletion
import BekenCam.Terminal
import BekenCam.ShellTerminal
import BekenCam.ScanNames
import BekenCam.LineEditor
import BekenCam.HttpLifetime
import BekenCam.WifiDelivery
import BekenCam.WifiReceive
import BekenCam.MainTask
import BekenCam.BkloaderBackup
import BekenCam.BkloaderCommand
import BekenCam.AesDriver
import BekenCam.CrcImage
import BekenCam.MjpegWorkers
import BekenCam.StaDeadline
