import RaptorCommon.ConfigSave
import RaptorCommon.IniSemantics
import RaptorCommon.ConfigGrammar
import RaptorCommon.ConfigSettings
import RaptorCommon.ConfigMap
import RaptorCommon.ConfigLineView
import RaptorCommon.ConfigBinding
import RaptorCommon.ConfigEmission
import RaptorCommon.ConfigPlan
import RaptorCommon.ConfigRevision
import RaptorCommon.ConfigEditedText
import RaptorCommon.ConfigPending
import RaptorCommon.ConfigSaving
import RaptorCommon.WriteBack
import RaptorCommon.ConfigShared
import RaptorCommon.DaemonStart
import RaptorCommon.ConfigInjection
import RaptorCommon.ConfigFullWrite
import RaptorCommon.ConfigStored
import RaptorCommon.ConfigRoundTrip
import RaptorCommon.TsMux
import RaptorCommon.TransportStream
import RaptorCommon.TsLayout
import RaptorCommon.TsDemux
import RaptorCommon.TsClock
import RaptorCommon.ConfigLineSequence
import RaptorCommon.ConfigUnique
import RaptorCommon.AtomicWrite
import RaptorCommon.ConfigSaveRun
import RaptorCommon.RingWindow
import RaptorCommon.MediaClock
import RaptorCommon.MediaWindow
import RaptorCommon.BitString
import RaptorCommon.Base64
import RaptorCommon.HttpAuth
import RaptorCommon.BasicAuth
import RaptorCommon.TimeText
import RaptorCommon.Jpeg
import RaptorCommon.JpegSeal
import RaptorCommon.JpegChain
import RaptorCommon.StepSystem
import RaptorCommon.PidLock
import RaptorCommon.SignSeed
import RaptorCommon.ConfigLanding
import RaptorCommon.ConfigFrame
import RaptorCommon.StreamReader
import RaptorCommon.ExpGolomb
import RaptorCommon.VuiReader
import RaptorCommon.VuiWalk
import RaptorCommon.VuiEscape
import RaptorCommon.VuiEdit
import RaptorCommon.SpsSyntax
import RaptorCommon.SpsH264
import RaptorCommon.SpsH265
import RaptorCommon.VuiRepeat
import RaptorCommon.ConfigReplacement
import RaptorCommon.ConfigWholeText
import RaptorCommon.Shadow
import RaptorCommon.ConfigSections
import RaptorCommon.ConfigDisplay
import RaptorCommon.ConfigChangeLog
import RaptorCommon.Sei
import RaptorCommon.SeiWalk
import RaptorCommon.ConfigReadFailure
import RaptorCommon.Base64Decode
import RaptorCommon.Crc
import RaptorCommon.TsTables
import RaptorCommon.SpsPocCounts
import RaptorCommon.ClockSettling
import RaptorCommon.TracedRun
import RaptorCommon.UntrustedReads
import RaptorCommon.TracedReader
import RaptorCommon.VuiOps
import RaptorCommon.VuiRange
import RaptorCommon.Gregorian
import RaptorCommon.TimePrint
import RaptorCommon.JpegDate
import RaptorCommon.BoundedOutput
import RaptorCommon.ConfigBudget
import RaptorCommon.ConfigCapacity
import RaptorCommon.GuardedRun
import RaptorCommon.Json
import RaptorCommon.JsonParser
import RaptorCommon.JsonBounds
import RaptorCommon.DecimalText
import RaptorCommon.JsonSpelling
import RaptorCommon.JsonGrammar
import RaptorCommon.JsonRoundTrip
import RaptorCommon.JsonPrinter
import RaptorCommon.JsonPrinted
import RaptorCommon.CtrlAnswers
import RaptorCommon.CtrlCommands
import RaptorCommon.CtrlProtocol
import RaptorCommon.CtrlConversation
import RaptorCommon.BlockStream
import RaptorCommon.Sha512
import RaptorCommon.Sha512Standard
import RaptorCommon.Sha512Stream
import RaptorCommon.TlsWrite
import RaptorCommon.AacConfig
import RaptorCommon.MakeDirs
import RaptorCommon.ConfigRewrite
