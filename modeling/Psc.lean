import Psc.Lib.Clocked
import Psc.Lib.NumericStd
import Psc.Lib.TripCounter
import Psc.Fault.Block
import Psc.Fault.Trips
import Psc.Fault.Digio
import Psc.Fault.Interlock
import Psc.Dac.GainOffset
import Psc.Adc.GainOffset
import Psc.Adc.Average
import Psc.Adc.AverageModes
import Psc.Dac.SmoothRamp
import Psc.Dac.Ramp
import Psc.Control.Setpoint
import Psc.Control.Isolation
import Psc.Dac.Chan
import Psc.Lib.RingLog
import Psc.Snapshot.Writer
import Psc.Snapshot.Reader
import Psc.Fofb.UdpRx
import Psc.Fofb.Frames
import Psc.Fofb.Resync
import Psc.Fofb.Flt2fix
import Psc.Fault.Channels
import Psc.Snapshot.Bursts
import Psc.Snapshot.Triggers
import Psc.Lib.PhaseAcc
import Psc.Snapshot.Nco
import Psc.Snapshot.PostTrigger
import Psc.Fault.Clear
import Psc.Fault.Reset
import Psc.Fault.TurnOn
import Psc.Control.Registers
import Psc.Control.Settings
import Psc.Control.Limits
import Psc.Control.RampUpload
import Psc.Dac.RampTable
import Psc.Dac.SetpointKept
import Psc.Dac.RampEnd
import Psc.Net.ClientMsg
import Psc.Net.RampMessage
import Psc.Control.RampEntries
import Psc.Lib.Transition
import Psc.Net.Listener
import Psc.Net.Closes
import Psc.Net.Broadcast
import Psc.Net.Delivery
import Psc.Lib.Interleaving
import Psc.Lib.Program
import Psc.Control.Accesses
import Psc.Control.Concurrent
import Psc.Control.Binary32
import Psc.Control.Flavor
import Psc.Control.Persist
import Psc.Control.Restore
import Psc.Control.FofbScale
import Psc.Control.Readback
import Psc.Adc.AverageSum
import Psc.Snapshot.Columns
import Psc.Snapshot.Cache
import Psc.Net.CommandSources
import Psc.Lib.RefHeap
import Psc.Net.Discover
import Psc.Snapshot.Window
import Psc.Snapshot.Polls
import Psc.Net.Skip
import Psc.Control.SetpointClamp
import Psc.Lib.Spi
import Psc.Dac.Ad5781
import Psc.Dac.Transfers
import Psc.Adc.Ltc2376
import Psc.Adc.DcctModule
import Psc.Adc.Ads8568
import Psc.Evr.OneHz
import Psc.Evr.Channel
import Psc.Evr.TimeOfDay
import Psc.Fault.PulseOff
import Psc.Control.CommandReadback
import Psc.Dac.Interpolation
import Psc.Control.RampDuration
import Psc.Net.DiscoverAnswers
import Psc.Lib.CString
import Psc.Lib.LineReader
import Psc.Lib.Words
import Psc.Net.Hwaddr
import Psc.Net.NetConf
import Psc.Net.Directives
import Psc.Net.NetConfLines
import Psc.Tftp.Requests
import Psc.Lib.StopAndWait
import Psc.Tftp.Moves
import Psc.Tftp.Sessions
import Psc.Tftp.Upload
import Psc.Tftp.Download
import Psc.Tftp.Usage
import Psc.Tftp.Timeouts
import Psc.Tftp.Strangers
import Psc.Tftp.Card
import Psc.Dac.Updates
import Psc.Dac.Ctrlr
import Psc.Adc.Calibrator
import Psc.Adc.MonModule
import Psc.Adc.Accumulator
import Psc.Adc.DcctReadings
import Psc.Snapshot.Latency
import Psc.Top.Readout
import Psc.Top.TenkhzGen
import Psc.Top.Averages
import Psc.Net.Session
