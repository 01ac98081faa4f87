import Mbf.Lib.Literals
import Mbf.Lib.Runs
import Mbf.Lib.Cells
import Mbf.Lib.Passes
import Mbf.Lib.Parser
import Mbf.Trigger.Target
import Mbf.Trigger.System
import Mbf.Trigger.Effects
import Mbf.Trigger.Locking
import Mbf.Trigger.SharedArm
import Mbf.Trigger.Combination
import Mbf.Trigger.Postponed
import Mbf.Trigger.Disarm
import Mbf.Trigger.Handler
import Mbf.Trigger.Board
import Mbf.Trigger.Strobes
import Mbf.Trigger.Agreement
import Mbf.Trigger.Waiters
import Mbf.Trigger.FreeRun
import Mbf.Trigger.Deadline
import Mbf.Command.Parse
import Mbf.Command.Number
import Mbf.Config.Load
import Mbf.Memory.Command
import Mbf.Memory.Readout
import Mbf.Memory.Correct
import Mbf.Sequencer.Config
import Mbf.Sequencer.Firmware
import Mbf.Sequencer.Turn
import Mbf.Sequencer.Run
import Mbf.Sequencer.Schedule
import Mbf.Sequencer.RoundTrip
import Mbf.Detector.Context
import Mbf.Detector.Rig
import Mbf.Detector.Published
import Mbf.Detector.Info
import Mbf.Detector.Socket
import Mbf.Detector.Deinterleave
import Mbf.Detector.Addresses
import Mbf.Bunch.Configuration
import Mbf.Bunch.SelectExact
import Mbf.Fir.Decimation
import Mbf.TunePll.Delivery
import Mbf.TunePll.Control
import Mbf.TunePll.Agreement
import Mbf.TunePll.FeedbackLaw
import Mbf.Dma.Read
import Mbf.Dma.Completion
import Mbf.Device.Lock
import Mbf.Device.Lifetime
import Mbf.Socket.BufferedFile
import Mbf.Sequencer.Slice
import Mbf.Dac.OutputEnable
import Mbf.Bunch.Status
import Mbf.Bunch.Offset
import Mbf.Detector.BunchMemory
import Mbf.Sequencer.Tune
import Mbf.Sequencer.Sweep
import Mbf.Sequencer.Timing
import Mbf.TunePll.OnePoleIir
import Mbf.TunePll.TargetPhase
import Mbf.Detector.Accumulate
import Mbf.Socket.BufferedOutput
import Mbf.Lib.RingBuffer
import Mbf.Memory.MemoryFifo
import Mbf.TunePll.DebugFifo
import Mbf.Lib.Extremum
import Mbf.Mms.Accumulate
import Mbf.Device.Events
import Mbf.Lib.Elastic
import Mbf.Memory.Dram1Path
import Mbf.Trigger.OneShot
import Mbf.Sequencer.Triggers
import Mbf.TunePll.Dwell
import Mbf.Adc.FillReject
import Mbf.Parse.Forest
import Mbf.TunePll.Cordic
import Mbf.Axi.Protocol
import Mbf.Dac.FirGain
import Mbf.Dac.NcoGains
import Mbf.Dac.OutputMux
import Mbf.Memory.Average
import Mbf.Parse.Addresses
import Mbf.Fir.Convolution
import Mbf.Mms.Counts
import Mbf.Registers.Progress
import Mbf.Registers.ClockCrossing
import Mbf.Nco.Accuracy
import Mbf.Lib.Requests
import Mbf.Registers.Mux
